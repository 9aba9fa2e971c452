import Lush.Tables.Table
import Lush.Text.Numbers

/-!
# Joins

Every join finds, for the rows of the result, the rows of both tables that they come from,
and gathers the columns.  The equi-joins find the rows of one table by the text of their
keys; the as-of join goes through two tables in the order of their keys.
-/

namespace Lush.Tables

open Datatable (ColType checked)

/-- `(int-matrix n)`, when there has to be an element. -/
def nonempty (n : ℕ) : Except Fault Unit :=
  if n = 0 then .error (.error "Cannot compute storage size") else .ok ()

/-- The numbers of a column that is called with row numbers. -/
def Column.numbers : Column → Except Fault (List ℤ)
  | .numeric _ cells => .ok (cells.map Datatable.Cell.number)
  | _ => .error (.error "can't evaluate this list")

/-- A string of a row, where `none` stands for `-1`. -/
def gatherString (rows : List CString) : Option ℕ → Except Fault CString
  | none => .ok emptyString
  | some ri => checked rows[ri]?

/-- An element of a row. -/
def gatherCell {t : ColType} (cells : List (Cell t)) : Option ℕ → Except Fault (Cell t)
  | none => .ok (nullCell t)
  | some ri => do
      let x ← checked cells[ri]?
      .ok x.copy

/-- `_join-gather-column`. -/
def joinGatherColumn (perm : List (Option ℕ)) : Column → Except Fault Column
  | .string sc => do
      let rows ← perm.mapM (gatherString sc.rows)
      .ok (.string (.ofRows rows))
  | .numeric t cells => do
      let _ ← nonempty perm.length
      let dst ← perm.mapM (gatherCell cells)
      .ok (.numeric t dst)
  | .intcol _ => .error (.error "not a function call")

/-- The name of a column in the result: with a suffix if the other table has it too. -/
def outName (names : List String) (suffix name : String) : String :=
  if name ∈ names then name ++ suffix else name

/-- The columns but the one that is joined on, with their names. -/
def otherColumns (dt : DataTable) (onCol : String) : List (String × Column) :=
  (dt.colNames.zip dt.columns).filter fun p => p.1 ≠ onCol

/-- The columns of the left table, and the other columns of the right one. -/
def assembleLeft (left right : DataTable) (onCol : String) (lPerm rPerm : List (Option ℕ)) :
    Except Fault DataTable := do
  let lCols ← left.columns.mapM (joinGatherColumn lPerm)
  let others := otherColumns right onCol
  let rCols ← (others.map Prod.snd).mapM (joinGatherColumn rPerm)
  .ok ⟨left.colNames ++ others.map fun p => outName left.colNames ".right" p.1, lCols ++ rCols,
    lPerm.length⟩

/-! ## Equi-joins -/

/-- `pname` of a number. -/
def pnameNumber (z : ℤ) : List UInt8 := Text.strNumber (Text.ofInt z)

/-- The text of a key.  `%ld` prints the name of the number, and a `d`. -/
def formatKey : Value → List UInt8
  | .string s => s.bytes
  | .cell .stamp x => pnameNumber x.number ++ [Text.ascii 'd']
  | .cell .int x => pnameNumber x.number

/-- The keys of the rows of a column, as texts: `_join-format-key`. -/
def Column.keys : Column → Except Fault (List (List UInt8))
  | .intcol _ => .error (.error "can't evaluate this list")
  | col => .ok (col.values.map formatKey)

/-- The rows of a numeric column are put in the table one after the other. -/
def buildIndex (keys : List (List UInt8)) : List UInt8 → List ℕ :=
  keys.zipIdx.foldl (fun ht p => Function.update ht p.1 (ht p.1 ++ [p.2])) fun _ => []

/-- The rows of a string column are put in the table by the strings of the pool. -/
def buildStringIndex (sc : Dictionary CString) : List UInt8 → List ℕ :=
  sc.pool.foldl (fun ht s =>
    let rows := sc.whereEq s
    if rows = [] then ht else Function.update ht s.bytes rows) fun _ => []

/-- `_join-build-index`: the rows of every key; there are none for a key that the table does
not have. -/
def joinBuildIndex (dt : DataTable) (colName : String) : Except Fault (List UInt8 → List ℕ) := do
  let col ← dt.getColumn colName
  match col with
  | .string sc => .ok (buildStringIndex sc)
  | col => do
      let keys ← col.keys
      .ok (buildIndex keys)

/-- The rows of the other table that a row is joined with: `none`, if there are none. -/
def matchedRows : List ℕ → List (Option ℕ)
  | [] => [none]
  | rows => rows.map some

/-- The rows of the result, from the keys of the rows that are all kept: the row, and a row
of the other table. -/
def joinRows {κ : Type} (ht : κ → List ℕ) (keys : List κ) : List (ℕ × Option ℕ) :=
  keys.zipIdx.flatMap fun p => (matchedRows (ht p.1)).map (Prod.mk p.2)

/-- `datatable-left-join`. -/
def leftJoin (left right : DataTable) (onCol : String) : Except Fault DataTable :=
  match left.colIndex onCol, right.colIndex onCol with
  | none, _ => .error (.error "on-col not found in left table")
  | _, none => .error (.error "on-col not found in right table")
  | some _, some _ => do
      let ht ← joinBuildIndex right onCol
      let lCol ← left.getColumn onCol
      let keys ← lCol.keys
      let rows := joinRows ht keys
      let _ ← nonempty rows.length
      assembleLeft left right onCol (rows.map fun p => some p.1) (rows.map Prod.snd)

/-- `datatable-right-join`. -/
def rightJoin (left right : DataTable) (onCol : String) : Except Fault DataTable :=
  match left.colIndex onCol, right.colIndex onCol with
  | none, _ => .error (.error "on-col not found in left table")
  | _, none => .error (.error "on-col not found in right table")
  | some _, some _ => do
      let ht ← joinBuildIndex left onCol
      let rCol ← right.getColumn onCol
      let keys ← rCol.keys
      let rows := joinRows ht keys
      let _ ← nonempty rows.length
      let lPerm := rows.map Prod.snd
      let rPerm := rows.map fun p => some p.1
      let lOthers := otherColumns left onCol
      let rOthers := otherColumns right onCol
      let lCols ← (lOthers.map Prod.snd).mapM (joinGatherColumn lPerm)
      let onData ← joinGatherColumn rPerm rCol
      let rCols ← (rOthers.map Prod.snd).mapM (joinGatherColumn rPerm)
      .ok ⟨lOthers.map (fun p => outName right.colNames ".left" p.1) ++
          onCol :: rOthers.map Prod.fst, lCols ++ onData :: rCols, rows.length⟩

/-! ## As-of join -/

/-- The right pointer moves on while the next key is not above the left one. -/
def advance (rKeys : List ℤ) (lv : ℤ) (ri : ℕ) : ℕ :=
  if ri + 1 < rKeys.length ∧ rKeys.getD (ri + 1) 0 ≤ lv then advance rKeys lv (ri + 1) else ri
termination_by rKeys.length - ri

/-- The right row of every left row, from the place of the right pointer. -/
def mergeScan (rKeys : List ℤ) : ℕ → List ℤ → List (Option ℕ)
  | _, [] => []
  | ri, lv :: lKeys =>
      let ri := advance rKeys lv ri
      (if rKeys.getD ri 0 ≤ lv then some ri else none) :: mergeScan rKeys ri lKeys

/-- A table in the order of a column. -/
def inOrder (dt : DataTable) (colName : String) : Except Fault DataTable := do
  let isSorted ← dt.sorted colName
  if isSorted then .ok dt else dt.sortBy colName false

/-- `datatable-asof-join`. -/
def asofJoin (left right : DataTable) (onCol : String) : Except Fault DataTable := do
  let lType ← left.colType onCol
  let rType ← right.colType onCol
  if lType = .string ∨ rType = .string then
    .error (.error "on-col must be numeric or stamp, not string")
  else do
    let sl ← inOrder left onCol
    let sr ← inOrder right onCol
    let lCol ← sl.getColumn onCol
    let rCol ← sr.getColumn onCol
    let _ ← nonempty sl.numRows
    let rPerm ←
      if sr.numRows = 0 then .ok (List.replicate sl.numRows none)
      else do
        let lKeys ← lCol.numbers
        let rKeys ← rCol.numbers
        .ok (mergeScan rKeys 0 lKeys)
    assembleLeft sl sr onCol ((List.range sl.numRows).map some) rPerm

end Lush.Tables
