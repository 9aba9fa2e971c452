import Lush.Library.Runs
import Lush.Basic

/-!
# Tables with room for rows

The columns of numbers of a `DataTable` are arrays with room for more rows than the table
has, and one number, the capacity, says how many.  The columns of strings and the integer
columns with a pool count their own rows.  What the numbers are, how they are stored in an
array and how `sort-by` orders them are parameters of this model.
-/

namespace Lush.Sized

/-! ## Values -/

/-- The types of columns that are arrays. -/
inductive NumType
  | real
  | float
  | int
  | stamp
deriving DecidableEq

/-- The types of columns. -/
inductive ColType
  | num (t : NumType)
  | string
  | intcol
deriving DecidableEq

/-- A column is an array. -/
def ColType.isNum : ColType → Bool
  | num _ => true
  | _ => false

/-- A value that is put in a table. -/
inductive Value (ν : Type)
  | nil
  | number (x : ν)
  | string (s : CString)
  | other

/-- What tables use of the language: an element after a number was stored in it, the null of
a type, an element of a new array, `%g`, and the order of the sorts. -/
structure Numbers (ν : Type) where
  store : NumType → ν → ν
  null : NumType → ν
  fresh : ν
  text : ν → CString
  sortup : NumType → Bool → List ν → List ℕ
  perm_sortup : ∀ t descending key, (sortup t descending key).Perm (List.range key.length)

/-- A column: an array, or the rows of a `StringColumn` or an `IntColumn`.  A string may be
missing, when a row was chosen that the column does not have. -/
inductive Column (ν : Type)
  | num (t : NumType) (elements : List ν)
  | string (rows : List (Option CString))
  | intcol (rows : List ν)

/-- A `DataTable`. -/
structure DataTable (ν : Type) where
  colNames : List String
  columns : List (Column ν)
  numRows : ℕ
  capacity : ℕ

variable {ν : Type} (numbers : Numbers ν)

/-- `(int-matrix n)` and the others. -/
def matrix (n : ℕ) : Except Fault (List ν) :=
  if n = 0 then .error (.error "Cannot compute storage size") else .ok (List.replicate n numbers.fresh)

/-- An element of an array. -/
def element (elements : List ν) (i : ℕ) : Except Fault ν :=
  match elements[i]? with
  | some x => .ok x
  | none => .error (.error "bad subscript")

namespace Column

def type : Column ν → ColType
  | num t _ => .num t
  | string _ => .string
  | intcol _ => .intcol

/-- A new column. -/
def new (capacity : ℕ) : ColType → Except Fault (Column ν)
  | .num t => do
      let elements ← matrix numbers capacity
      .ok (num t elements)
  | .string => .ok (string [])
  | .intcol => .ok (intcol [])

/-- A larger array with the elements of the rows.  The other columns grow on their own. -/
def grow (newCap numRows : ℕ) : Column ν → Except Fault (Column ν)
  | num t elements => do
      let rest ← matrix numbers newCap
      let rows ← (List.range numRows).mapM (element elements)
      .ok (num t (rows ++ rest.drop numRows))
  | col => .ok col

/-- A value of `append-row` is put in its column. -/
def put (row : ℕ) (value : Value ν) : Column ν → Except Fault (Column ν)
  | string rows =>
      match value with
      | .string s => .ok (string (rows ++ [some s]))
      | .nil => .ok (string (rows ++ [some (cstring [])]))
      | .number x => .ok (string (rows ++ [some (numbers.text x)]))
      | .other => .error (.error "not a number")
  | intcol rows =>
      match value with
      | .nil => .ok (intcol (rows ++ [numbers.null .int]))
      | .number x => .ok (intcol (rows ++ [numbers.store .int x]))
      | _ => .error (.error "not a number")
  | num t elements => do
      let x ←
        match value with
        | .nil => .ok (numbers.null t)
        | .number x => .ok (numbers.store t x)
        | _ => .error (.error "not a number")
      if row < elements.length then .ok (num t (elements.set row x))
      else .error (.error "bad subscript")

/-- Rows of a column, in a new one. -/
def select (indices : List ℕ) : Column ν → Except Fault (Column ν)
  | string rows => .ok (string (indices.map fun i => (rows[i]?).getD none))
  | intcol rows => do
      let rows ← indices.mapM (element rows)
      .ok (intcol rows)
  | num t elements => do
      let _ ← matrix numbers indices.length
      let elements ← indices.mapM (element elements)
      .ok (num t elements)

/-- `_dt-i1gather` and the others read an array without a test. -/
def gather (perm : List ℕ) : Column ν → Except Fault (Column ν)
  | num t elements =>
      if ∀ i ∈ perm, i < elements.length then select numbers perm (num t elements)
      else .error .undefined
  | col => select numbers perm col

end Column

/-- Something is done to one column after the other, until there is an error. -/
def eachColumn : List (Column ν → Except Fault (Column ν)) → List (Column ν) →
    List (Column ν) × Except Fault Unit
  | f :: fs, col :: cols =>
      match f col with
      | .error e => (col :: cols, .error e)
      | .ok col =>
          let rest := eachColumn fs cols
          (col :: rest.1, rest.2)
  | _, cols => (cols, .ok ())

namespace DataTable

/-- `(new DataTable)`. -/
def new : DataTable ν := ⟨[], [], 0, 64⟩

variable (dt : DataTable ν)

/-- `add-column`. -/
def addColumn (name : String) (type : ColType) : Except Fault (DataTable ν) :=
  if 0 < dt.numRows then .error (.error "cannot add columns after rows have been appended")
  else if dt.colNames.contains name then .error (.error "duplicate column name")
  else do
    let col ← Column.new numbers dt.capacity type
    .ok { dt with colNames := dt.colNames ++ [name], columns := dt.columns ++ [col] }

/-- The first part of `append-row`. -/
def grow : DataTable ν × Except Fault Unit :=
  if dt.numRows < dt.capacity then (dt, .ok ())
  else
    let newCap := 2 * dt.capacity
    let grown := eachColumn (dt.columns.map fun _ => Column.grow numbers newCap dt.numRows)
      dt.columns
    match grown.2 with
    | .error e => ({ dt with columns := grown.1 }, .error e)
    | .ok _ => ({ dt with columns := grown.1, capacity := newCap }, .ok ())

/-- `append-row`.  What was done before an error stays. -/
def appendRow (values : List (Value ν)) : DataTable ν × Except Fault Unit :=
  if values.length ≠ dt.columns.length then (dt, .error (.error "wrong number of values"))
  else
    let grown := dt.grow numbers
    match grown.2 with
    | .error e => (grown.1, .error e)
    | .ok _ =>
        let put := eachColumn (values.map (Column.put numbers dt.numRows)) grown.1.columns
        match put.2 with
        | .error e => ({ grown.1 with columns := put.1 }, .error e)
        | .ok _ => ({ grown.1 with columns := put.1, numRows := dt.numRows + 1 }, .ok ())

/-- `set`, of an element of an array. -/
def set (row ci : ℕ) (value : Value ν) : Except Fault (DataTable ν) :=
  if dt.numRows ≤ row then .error (.error "row index out of range")
  else
    match dt.columns[ci]?, value with
    | some (.num t elements), .number x =>
        if row < elements.length then
          .ok { dt with columns := dt.columns.set ci (.num t (elements.set row (numbers.store t x))) }
        else .error (.error "bad subscript")
    | some (.num _ _), _ => .error (.error "not a number")
    | some _, _ => .error (.error "cannot set individual string/intcol column values")
    | none, _ => .error (.error "not a number")

/-- A new table with the columns of this one, and no rows. -/
def schema : Except Fault (DataTable ν) := do
  let columns ← dt.columns.mapM fun col => Column.new numbers 64 col.type
  .ok ⟨dt.colNames, columns, 0, 64⟩

/-- A new table whose columns were set one after the other.  `set-column-data`, which is
called for arrays, sets the number of rows and the capacity. -/
def ofSelected (colNames : List String) (columns : List (Column ν)) (nr : ℕ) : DataTable ν :=
  if columns.any fun col => col.type.isNum then
    ⟨colNames, columns, nr, max 64 nr⟩
  else ⟨colNames, columns, 0, 64⟩

/-- The columns of some names. -/
def named (names : List String) : Except Fault (List (Column ν)) :=
  names.mapM fun name =>
    match (dt.colNames.zip dt.columns).find? fun p => p.1 == name with
    | some p => .ok p.2
    | none => .error (.error "not a number")

/-- `select-columns`. -/
def selectColumns (names : List String) : Except Fault (DataTable ν) :=
  if ¬names.Nodup then .error (.error "duplicate column name")
  else do
    let chosen ← dt.named names
    let columns ← chosen.mapM (Column.select numbers (List.range dt.numRows))
    .ok (ofSelected names columns dt.numRows)

/-- `select-rows`. -/
def selectRows (indices : List ℕ) : Except Fault (DataTable ν) :=
  if indices = [] then dt.schema numbers
  else do
    let columns ← dt.columns.mapM (Column.select numbers indices)
    .ok (ofSelected dt.colNames columns indices.length)

/-- `where`, with the test that its operator, column and value make of a row. -/
def whereIndices (test : ℕ → Except Fault Bool) : Except Fault (List ℕ) := do
  let holds ← (List.range dt.numRows).mapM test
  .ok ((((List.range dt.numRows).zip holds).filter Prod.snd).map Prod.fst)

/-- `where-rows`. -/
def whereRows (test : ℕ → Except Fault Bool) : Except Fault (DataTable ν) := do
  let indices ← dt.whereIndices test
  dt.selectRows numbers indices

/-- `select-rows-idx`. -/
def selectRowsIdx (perm : List ℕ) : Except Fault (DataTable ν) :=
  if perm = [] then dt.schema numbers
  else do
    let columns ← dt.columns.mapM (Column.gather numbers perm)
    .ok ⟨dt.colNames, columns, perm.length, perm.length⟩

/-- `grade`. -/
def grade (ci : ℕ) (descending : Bool) : Except Fault (List ℕ) :=
  match dt.columns[ci]? with
  | some (.num t elements) =>
      if dt.numRows ≤ 1 then .ok [0]
      else if dt.numRows ≤ elements.length then
        .ok (numbers.sortup t descending (elements.take dt.numRows))
      else .error (.error "narrow: bad dimension")
  | some _ => .error (.error "cannot grade by string/intcol column")
  | none => .error (.error "not a number")

/-- `sort-by`. -/
def sortBy (ci : ℕ) (descending : Bool) : Except Fault (DataTable ν) :=
  if dt.numRows = 0 then dt.schema numbers
  else do
    let perm ← dt.grade numbers ci descending
    dt.selectRowsIdx numbers perm

end DataTable

/-! ## Runs -/

/-- What is done to a table. -/
inductive Op (ν : Type)
  | addColumn (name : String) (type : ColType)
  | appendRow (values : List (Value ν))
  | set (row ci : ℕ) (value : Value ν)
  | selectColumns (names : List String)
  | selectRows (indices : List ℕ)
  | whereRows (test : ℕ → Except Fault Bool)
  | selectRowsIdx (perm : List ℕ)
  | sortBy (ci : ℕ) (descending : Bool)

namespace DataTable

/-- The table after an operation that gives a new one: after an error, there is the old one
only. -/
def after (dt : DataTable ν) : Except Fault (DataTable ν) → Option (DataTable ν)
  | .ok dt' => some dt'
  | .error .undefined => none
  | .error _ => some dt

/-- The table after an operation. -/
def step (dt : DataTable ν) : Op ν → Option (DataTable ν)
  | .addColumn name type => dt.after (dt.addColumn numbers name type)
  | .appendRow values => some (dt.appendRow numbers values).1
  | .set row ci value => dt.after (dt.set numbers row ci value)
  | .selectColumns names => dt.after (dt.selectColumns numbers names)
  | .selectRows indices => dt.after (dt.selectRows numbers indices)
  | .whereRows test => dt.after (dt.whereRows numbers test)
  | .selectRowsIdx perm => dt.after (dt.selectRowsIdx numbers perm)
  | .sortBy ci descending => dt.after (dt.sortBy numbers ci descending)

end DataTable

end Lush.Sized
