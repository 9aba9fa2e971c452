import Lush.Library.Heapsort
import Lush.Tables.Column

/-!
# Tables in memory

`DataTable` has named columns.  Rows are chosen by their numbers (`select-rows-idx`), and
`sort-by` chooses all of them in the order of `grade`.
-/

namespace Lush.Tables

open Datatable (ColType checked i1sortedp l1sortedp)

/-! ## Tables -/

/-- A `DataTable`, without the capacity of its columns beyond the rows. -/
structure DataTable where
  colNames : List String
  columns : List Column
  numRows : ℕ

/-- All columns have a name of their own, and all rows. -/
structure DataTable.Sound (dt : DataTable) : Prop where
  named : dt.colNames.length = dt.columns.length
  distinct : dt.colNames.Nodup
  full : ∀ col ∈ dt.columns, col.values.length = dt.numRows

/-- A table that is in order. -/
structure Table extends DataTable where
  sound : toDataTable.Sound

namespace DataTable

/-- `col-types`. -/
def colTypes (dt : DataTable) : List ColumnType := dt.columns.map Column.type

/-- `col-index`.  The last column of a name is the one that the hash table has. -/
def colIndex (dt : DataTable) (name : String) : Option ℕ :=
  ((dt.colNames.zipIdx.filter fun p => p.1 = name).getLast?).map Prod.snd

/-- `(nth idx list)` where `idx` may be `()`. -/
def nth {α : Type} (idx : Option ℕ) (l : List α) : Except Fault α :=
  match idx with
  | none => .error (.error "not a number")
  | some i => checked l[i]?

/-- `col-type`, by name. -/
def colType (dt : DataTable) (name : String) : Except Fault ColumnType :=
  nth (dt.colIndex name) dt.colTypes

/-- `get-column`, by name. -/
def getColumn (dt : DataTable) (name : String) : Except Fault Column :=
  match dt.colIndex name with
  | none => .error (.error "column not found")
  | some i => checked dt.columns[i]?

/-- A new table with the columns of another one, and no rows. -/
def schema (dt : DataTable) : DataTable := ⟨dt.colNames, dt.colTypes.map Column.new, 0⟩

end DataTable

/-! ## Choosing rows -/

/-- `dest[i] = src[perm[i]]`. -/
def gather {α : Type} (src : List α) (perm : List ℕ) : Except Fault (List α) :=
  perm.mapM fun i => checked src[i]?

/-- A column with some of the rows, in a new column of its type. -/
def Column.gather (perm : List ℕ) : Column → Except Fault Column
  | .numeric t cells => do
      let cells ← Tables.gather cells perm
      .ok (.numeric t cells)
  | .string sc => do
      let rows ← Tables.gather sc.rows perm
      .ok (.string (.ofRows rows))
  | .intcol ic => do
      let rows ← Tables.gather ic.rows perm
      .ok (.intcol (.ofRows rows))

namespace DataTable

/-- `select-rows-idx`. -/
def selectRowsIdx (dt : DataTable) (perm : List ℕ) : Except Fault DataTable :=
  if perm = [] then .ok dt.schema
  else do
    let columns ← dt.columns.mapM (Column.gather perm)
    .ok ⟨dt.colNames, columns, perm.length⟩

/-! ## Sorting -/

/-- The cells of a column, each with its row. -/
def keyed {t : ColType} (cells : List (Cell t)) (i : ℕ) : Cell t × ℕ := (cells.getD i 0, i)

/-- `idx-i1i1sortup` and `_dt-l1i1sortup`.  The first one counts positions from `1`, and
stores the last element without a sift. -/
def sortup {t : ColType} (cells : List (Cell t)) (n : ℕ) : List ℕ :=
  (List.range n).map fun i =>
    (Heapsort.heapsort (fun p : Cell t × ℕ => p.1.toInt) n (keyed cells) i).2

/-- `idx-i1i1sortdown` and `_dt-l1i1sortdown`. -/
def sortdown {t : ColType} (cells : List (Cell t)) (n : ℕ) : List ℕ :=
  (List.range n).map fun i =>
    (Heapsort.heapsort (fun p : Cell t × ℕ => OrderDual.toDual p.1.toInt) n (keyed cells) i).2

/-- `grade`. -/
def grade (dt : DataTable) (colName : String) (descending : Bool) : Except Fault (List ℕ) := do
  let col ← nth (dt.colIndex colName) dt.columns
  match col with
  | .numeric _ cells =>
      if dt.numRows ≤ 1 then .ok [0]
      else if descending then .ok (sortdown cells dt.numRows)
      else .ok (sortup cells dt.numRows)
  | _ => .error (.error "cannot grade by string/intcol column")

/-- `sort-by`. -/
def sortBy (dt : DataTable) (colName : String) (descending : Bool) : Except Fault DataTable :=
  if dt.numRows = 0 then .ok dt.schema
  else do
    let perm ← dt.grade colName descending
    dt.selectRowsIdx perm

/-- `datatable-sorted?`, ascending. -/
def sorted (dt : DataTable) (colName : String) : Except Fault Bool := do
  let type ← dt.colType colName
  if type = .string then .error (.error "string columns not supported")
  else do
    let col ← dt.getColumn colName
    if dt.numRows ≤ 1 then .ok true
    else
      match col with
      | .numeric .int cells => .ok (i1sortedp (cells.take dt.numRows))
      | .numeric .stamp cells => .ok (l1sortedp (cells.take dt.numRows))
      | _ => .error (.error "not an index")

end DataTable

/-! ## What the rows are -/

section

variable {α : Type} {src : List α} {perm : List ℕ} {dt : DataTable} {col : Column}

theorem checked_ok {o : Option α} {a : α} (h : o = some a) : checked o = .ok a := by
  rw [h]
  rfl

/-- The values of what is found for every element of a list. -/
theorem mapM_values {β γ : Type} {f : α → Except Fault β} {e : β → γ} {g : α → Option γ}
    {l : List α} (h : ∀ a ∈ l, ∃ b, f a = .ok b ∧ g a = some (e b)) :
    ∃ l', l.mapM f = .ok l' ∧ (l'.map e).map some = l.map g := by
  induction l with
  | nil => exact ⟨[], rfl, rfl⟩
  | cons a l ih =>
      obtain ⟨⟨b, hb, hvalue⟩, hl⟩ := List.forall_mem_cons.mp h
      obtain ⟨l', hl', hmap⟩ := ih hl
      refine ⟨b :: l', ?_, ?_⟩
      · rw [List.mapM_cons, hb, hl']
        rfl
      · rw [List.map_cons, List.map_cons, List.map_cons, hmap, hvalue]

/-- **A gather** finds every row that there is. -/
theorem gather_ok {γ : Type} (e : α → γ) (src : List α) (h : ∀ i ∈ perm, i < src.length) :
    ∃ dest, gather src perm = .ok dest ∧
      (dest.map e).map some = perm.map fun i => (src.map e)[i]? :=
  mapM_values fun i hi => by
    have hlt := h i hi
    have hget : src[i]? = some src[i] := List.getElem?_eq_getElem hlt
    exact ⟨_, checked_ok hget, by rw [List.getElem?_map, hget, Option.map_some]⟩

/-- What a row of the result holds: a null where it comes from no row. -/
def pick (col : Column) : Option ℕ → Option Value
  | none => some (dtNull col.type)
  | some i => col.values[i]?

/-- A column has the rows `perm` of another one, with nulls where there is none. -/
structure Picked (perm : List (Option ℕ)) (col col' : Column) : Prop where
  type : col'.type = col.type
  values : col'.values.map some = perm.map (pick col)

theorem Picked.length {perm : List (Option ℕ)} {col' : Column} (h : Picked perm col col') :
    col'.values.length = perm.length := by
  have hlen := congrArg List.length h.values
  simpa using hlen

theorem gather_picked (perm : List ℕ) (col : Column) (h : ∀ i ∈ perm, i < col.values.length) :
    ∃ col', col.gather perm = .ok col' ∧ Picked (perm.map some) col col' := by
  cases col with
  | numeric t cells =>
      obtain ⟨dest, hdest, hmap⟩ := gather_ok (Value.cell t) cells fun i hi => by
        simpa [Column.values] using h i hi
      refine ⟨.numeric t dest, by simp [Column.gather, hdest, Bind.bind, Except.bind], rfl, ?_⟩
      rw [List.map_map]
      exact hmap
  | string sc =>
      obtain ⟨dest, hdest, hmap⟩ := gather_ok Value.string sc.rows fun i hi => by
        simpa [Column.values] using h i hi
      refine ⟨.string (.ofRows dest), by simp [Column.gather, hdest, Bind.bind, Except.bind], rfl,
        ?_⟩
      rw [List.map_map, Column.values, Dictionary.rows_ofRows]
      exact hmap
  | intcol ic =>
      obtain ⟨dest, hdest, hmap⟩ := gather_ok (Value.cell .int) ic.rows fun i hi => by
        simpa [Column.values] using h i hi
      refine ⟨.intcol (.ofRows dest), by simp [Column.gather, hdest, Bind.bind, Except.bind], rfl,
        ?_⟩
      rw [List.map_map, Column.values, Dictionary.rows_ofRows]
      exact hmap

/-- What is done to every column, when it can be done. -/
theorem mapM_ok {β : Type} {f : α → Except Fault β} {R : α → β → Prop} {l : List α}
    (h : ∀ a ∈ l, ∃ b, f a = .ok b ∧ R a b) : ∃ l', l.mapM f = .ok l' ∧ List.Forall₂ R l l' := by
  induction l with
  | nil => exact ⟨[], rfl, .nil⟩
  | cons a l ih =>
      obtain ⟨⟨b, hb, hab⟩, hl⟩ := List.forall_mem_cons.mp h
      obtain ⟨l', hl', hall⟩ := ih hl
      refine ⟨b :: l', ?_, .cons hab hall⟩
      rw [List.mapM_cons, hb, hl']
      rfl

/-- The rows `perm` of a table. -/
structure Selected (perm : List ℕ) (dt dt' : DataTable) : Prop where
  colNames : dt'.colNames = dt.colNames
  columns : List.Forall₂ (Picked (perm.map some)) dt.columns dt'.columns
  numRows : dt'.numRows = perm.length

theorem schema_selected (dt : DataTable) : Selected [] dt dt.schema where
  colNames := rfl
  columns := by
    show List.Forall₂ _ dt.columns (dt.colTypes.map Column.new)
    rw [DataTable.colTypes, List.map_map, List.forall₂_map_right_iff, List.forall₂_same]
    exact fun col _ => ⟨Column.type_new _, by simp⟩
  numRows := rfl

/-- **`select-rows-idx`.** -/
theorem selectRowsIdx_ok (hsound : dt.Sound) (perm : List ℕ) (h : ∀ i ∈ perm, i < dt.numRows) :
    ∃ dt', dt.selectRowsIdx perm = .ok dt' ∧ Selected perm dt dt' := by
  unfold DataTable.selectRowsIdx
  by_cases hnil : perm = []
  · rw [if_pos hnil]
    subst hnil
    exact ⟨_, rfl, schema_selected dt⟩
  · rw [if_neg hnil]
    obtain ⟨columns, hcolumns, hpicked⟩ := mapM_ok (l := dt.columns) fun col hcol =>
      gather_picked perm col fun i hi => by
        rw [hsound.full col hcol]
        exact h i hi
    refine ⟨⟨dt.colNames, columns, perm.length⟩, ?_, rfl, hpicked, rfl⟩
    rw [hcolumns]
    rfl

/-- The rows of a sound table are a sound table. -/
theorem Selected.sound {dt' : DataTable} (h : Selected perm dt dt') (hsound : dt.Sound) :
    dt'.Sound where
  named := by rw [h.colNames, hsound.named, h.columns.length_eq]
  distinct := h.colNames ▸ hsound.distinct
  full := by
    intro col hcol
    obtain ⟨i, hi, rfl⟩ := List.getElem_of_mem hcol
    have hpicked := List.forall₂_iff_get.mp h.columns
    have hi' : i < dt.columns.length := hpicked.1 ▸ hi
    have hlen := (hpicked.2 i hi' hi).length
    rw [h.numRows]
    simpa using hlen

end

/-! ## Names -/

section

variable {dt : DataTable} {name : String} {ci : ℕ}

/-- The column of a name. -/
theorem colIndex_eq_some_iff (hsound : dt.Sound) :
    dt.colIndex name = some ci ↔ dt.colNames[ci]? = some name := by
  have hmem : ∀ p, p ∈ dt.colNames.zipIdx.filter (fun p => p.1 = name) ↔
      dt.colNames[p.2]? = some p.1 ∧ p.1 = name := by
    intro p
    rw [List.mem_filter, List.mem_zipIdx_iff_getElem?]
    simp
  unfold DataTable.colIndex
  constructor
  · intro h
    obtain ⟨p, hp, rfl⟩ := Option.map_eq_some_iff.mp h
    obtain ⟨hget, rfl⟩ := (hmem p).mp (List.mem_of_getLast? hp)
    exact hget
  · intro h
    have hne : dt.colNames.zipIdx.filter (fun p => p.1 = name) ≠ [] :=
      List.ne_nil_of_mem ((hmem (name, ci)).mpr ⟨h, rfl⟩)
    rw [List.getLast?_eq_some_getLast hne, Option.map_some, Option.some.injEq]
    obtain ⟨hget, hname⟩ := (hmem _).mp (List.getLast_mem hne)
    rw [hname] at hget
    obtain ⟨hi, hi'⟩ := List.getElem?_eq_some_iff.mp hget
    obtain ⟨hj, hj'⟩ := List.getElem?_eq_some_iff.mp h
    exact (List.Nodup.getElem_inj_iff hsound.distinct).mp (hi'.trans hj'.symm)

theorem getColumn_ok (hci : dt.colIndex name = some ci) {col : Column}
    (hcol : dt.columns[ci]? = some col) :
    dt.getColumn name = .ok col ∧ dt.colType name = .ok col.type ∧
      DataTable.nth (dt.colIndex name) dt.columns = .ok col := by
  refine ⟨?_, ?_, ?_⟩
  · rw [DataTable.getColumn, hci]
    exact checked_ok hcol
  · rw [DataTable.colType, hci]
    exact checked_ok (by simp [DataTable.colTypes, hcol])
  · rw [hci]
    exact checked_ok hcol

end

end Lush.Tables
