import Lush.Basic
import Lush.Library.Binary64
import Lush.Library.Encodings
import Lush.Library.Words

/-!
# Tables in a directory

A table that is persisted is a directory with a file for every column and the metadata
`meta.lsh`, with the columns that are in order.  There are three ways to store a column:
its cells one after the other, their differences (`'stamp`), or their runs (`'int`).
`columnardb-save` and `columnardb-save-compressed` write a whole table,
`columnardb-append` puts rows at the end of the files, and the functions that delete or
update rows load the table, change it, and save it again.
-/

namespace Lush.Datatable

/-! ## Cells -/

/-- The types of the columns, `'int` and `'stamp`. -/
inductive ColType
  | int
  | stamp
deriving DecidableEq

/-- The bytes of a cell. -/
def ColType.size : ColType → ℕ
  | .int => 4
  | .stamp => 8

/-- An element of an `int-matrix` or of a `long-matrix`. -/
abbrev Cell (t : ColType) := BitVec (8 * t.size)

/-- An integer as a number: rounded to 53 bits. -/
def numberOf (z : ℤ) : ℤ :=
  let e := Nat.log 2 z.natAbs - 52
  z.sign * (Binary64.roundHalfEven ((z.natAbs : ℚ) / 2 ^ e) * 2 ^ e : ℕ)

/-- The number that `(col i)` returns. -/
def Cell.number {t : ColType} (x : Cell t) : ℤ := numberOf x.toInt

/-- The cell after `(data i (col i))`. -/
def Cell.copy {t : ColType} (x : Cell t) : Cell t := BitVec.ofInt _ x.number

/-- `*td-stamp-null*`. -/
def stampNull : Cell .stamp := BitVec.ofInt _ (-2 ^ 63)

/-- `idx-i1sortedp`: no element is less than the one before it. -/
def i1sortedp {t : ColType} : List (Cell t) → Bool
  | x :: y :: data => !decide (y.toInt < x.toInt) && i1sortedp (y :: data)
  | _ => true

/-- `_dt-l1sortedp`. -/
def l1sortedp (data : List (Cell .stamp)) : Bool :=
  !data.contains stampNull && i1sortedp data

/-- The test of `columnardb-save` for the list of the columns in order. -/
def sortedp : (t : ColType) → List (Cell t) → Bool
  | .int, data => i1sortedp data
  | .stamp, data => l1sortedp data

/-! ## Tables -/

/-- A column with its rows. -/
structure Column where
  type : ColType
  cells : List (Cell type)

/-- A `DataTable`, without the capacity of its columns beyond the rows.  Every column has
all rows, and the rows are counted with an `int`. -/
structure DataTable where
  numRows : ℕ
  colNames : List String
  columns : List Column
  named : colNames.length = columns.length
  full : ∀ col ∈ columns, col.cells.length = numRows
  small : numRows < 2 ^ 31

/-- `col-types`. -/
def DataTable.colTypes (dt : DataTable) : List ColType := dt.columns.map Column.type

/-- The rows of a column in a new matrix. -/
def Column.data (col : Column) : List (Cell col.type) := col.cells.map Cell.copy

/-- `select-rows` with the rows that are not to be deleted. -/
def DataTable.deleteRows (dt : DataTable) (rows : List ℤ) : DataTable where
  numRows := ((List.range dt.numRows).filter fun (i : ℕ) => (i : ℤ) ∉ rows).length
  colNames := dt.colNames
  columns := dt.columns.map fun col => ⟨col.type,
    ((List.range dt.numRows).filter fun (i : ℕ) => (i : ℤ) ∉ rows).map fun i =>
      (col.cells.getD i 0).copy⟩
  named := by rw [List.length_map, dt.named]
  full := by simp
  small := (List.length_filter_le _ _).trans_lt (by simpa using dt.small)

/-- `set`, for a row and a column of the table. -/
def DataTable.set (dt : DataTable) (row ci : ℕ) (value : ℤ) : DataTable where
  numRows := dt.numRows
  colNames := dt.colNames
  columns := dt.columns.mapIdx fun i col =>
    if i = ci then ⟨col.type, col.cells.set row (BitVec.ofInt _ value)⟩ else col
  named := by rw [List.length_mapIdx, dt.named]
  full := by
    intro col hcol
    obtain ⟨i, hi, rfl⟩ := List.mem_mapIdx.mp hcol
    have hfull := dt.full dt.columns[i] (List.getElem_mem hi)
    by_cases hci : i = ci
    · rw [if_pos hci]
      exact (List.length_set ..).trans hfull
    · rwa [if_neg hci]
  small := dt.small

/-! ## Files -/

/-- The type code in the header of a file: `2`, `4`, `7` or `8`. -/
inductive Typecode
  | int32
  | rleInt32
  | long
  | deltaLong
deriving DecidableEq

/-- A file `col-<ci>.col`: what the header says, and the bytes after the header. -/
structure ColFile where
  count : ℕ
  typecode : Typecode
  bytes : List UInt8

/-- `_dt-write-ints` and `_dt-write-longs`. -/
def writeCells : (t : ColType) → List (Cell t) → ColFile
  | .int, data => ⟨data.length, .int32, Words.write data⟩
  | .stamp, data => ⟨data.length, .long, Words.write data⟩

/-- The runs as they are written: the value and the length of every run. -/
def rleWords (runs : List (Cell .int × ℕ)) : List (Cell .int) :=
  runs.flatMap fun r => [r.1, BitVec.ofNat _ r.2]

/-- `_dt-i1rle-encode` and `_dt-write-rle-ints`. -/
def writeRleInts (data : List (Cell .int)) : ColFile :=
  let runs := Encodings.runs data
  ⟨data.length, .rleInt32, Words.write (BitVec.ofNat _ runs.length :: rleWords runs)⟩

/-- `_dt-l1delta-encode` and `_dt-write-delta-longs`. -/
def writeDeltaLongs (data : List (Cell .stamp)) : ColFile :=
  ⟨data.length, .deltaLong, Words.write (Encodings.deltas data)⟩

/-- The file of a column that is to be compressed. -/
def compressCells : (t : ColType) → List (Cell t) → ColFile
  | .int, data => writeRleInts data
  | .stamp, data => writeDeltaLongs data

/-- `_dt-append-ints` and `_dt-append-longs`: at the end of the file, whatever it
holds. -/
def appendCells {t : ColType} (f : ColFile) (data : List (Cell t)) (newTotal : ℕ) : ColFile :=
  { f with count := newTotal, bytes := f.bytes ++ Words.write data }

/-- The elements of a matrix after a file has been read into it. -/
def fill {t : ColType} (nrows : ℕ) (data : List (Cell t)) : List (Cell t) :=
  data ++ List.replicate (nrows - data.length) 0

/-- The runs that are read from a file. -/
def rleRuns : List (Cell .int) → List (Cell .int × ℕ)
  | val :: len :: words => (val, len.toInt.toNat) :: rleRuns words
  | _ => []

/-- `_dt-read-ints` and `_dt-read-longs`: the cells after the header, `nrows` of them or
all when there are fewer. -/
def readCells (t : ColType) (nrows : ℕ) (f : ColFile) : List (Cell t) :=
  Words.read t.size nrows f.bytes

/-- The number of the runs, at the front of the file. -/
def rleCount (f : ColFile) : ℕ := ((readCells .int 1 f).headD 0).toInt.toNat

/-- `_dt-read-rle-ints`, for a file that is not too short. -/
def readRleInts (f : ColFile) (nrows : ℕ) : Option (List (Cell .int)) :=
  match readCells .int (2 * rleCount f + 1) f with
  | _ :: words =>
      if words.length = 2 * rleCount f then
        some (fill nrows ((Encodings.expand (rleRuns words)).take nrows))
      else none
  | [] => none

/-- The rows of a file that is not compressed. -/
def readRaw (nrows : ℕ) (t : ColType) (f : ColFile) : Option (List (Cell t)) :=
  if (readCells t nrows f).length = nrows then some (readCells t nrows f) else none

/-- The rows of a column as `columnardb-load-mem` reads them. -/
def readColumn (nrows : ℕ) : (t : ColType) → ColFile → Option (List (Cell t))
  | .int, f => if f.typecode = .rleInt32 then readRleInts f nrows else readRaw nrows .int f
  | .stamp, f =>
      if f.typecode = .deltaLong then some (Encodings.sums (fill nrows (readCells .stamp nrows f)))
      else readRaw nrows .stamp f

/-! ## Directories -/

/-- The metadata. -/
structure Metadata where
  nrows : ℕ
  ncols : ℕ
  names : List String
  types : List ColType
  sorted : List ℕ

/-- A table directory. -/
structure Directory where
  metadata : Option Metadata
  files : ℕ → Option ColFile

/-- The directory in which there is nothing yet. -/
def Directory.new : Directory := ⟨none, fun _ => none⟩

/-- The columns that pass a test, by their places. -/
def columnsWith (test : ℕ → Column → Bool) (columns : List Column) : List ℕ :=
  (columns.zipIdx.filter fun p => test p.2 p.1).map Prod.snd

/-- The columns of a table that are in order. -/
def sortedCols (dt : DataTable) : List ℕ :=
  if 0 < dt.numRows then columnsWith (fun _ col => sortedp col.type col.data) dt.columns else []

/-- The directory after every column of a table has been written.  There are no files
for a table without rows. -/
def Directory.writeTable (d : Directory) (dt : DataTable) (file : ℕ → Column → ColFile) :
    Directory where
  metadata := some ⟨dt.numRows, dt.columns.length, dt.colNames, dt.colTypes, sortedCols dt⟩
  files ci := if 0 < dt.numRows then (dt.columns[ci]?.map (file ci)).or (d.files ci) else d.files ci

/-- `columnardb-save`. -/
def columnardbSave (d : Directory) (dt : DataTable) : Directory :=
  d.writeTable dt fun _ col => writeCells col.type col.data

/-- `columnardb-save-compressed`, where `compressCols` may be `()`. -/
def columnardbSaveCompressed (d : Directory) (dt : DataTable) (compressCols : List ℕ) :
    Directory :=
  let toCompress := if compressCols = [] then sortedCols dt else compressCols
  d.writeTable dt fun ci col =>
    if ci ∈ toCompress then compressCells col.type col.data else writeCells col.type col.data

/-- Whether a column that was in order is so after `data` has been put after its
`oldNrows` rows, as `columnardb-append` finds out. -/
def stillSorted (oldNrows : ℕ) (f : ColFile) : (t : ColType) → List (Cell t) → Bool
  | .int, data => i1sortedp data
  | .stamp, data =>
      let oldData := readCells .stamp oldNrows f
      let less := decide ((data.headD 0).number < (oldData.getD (oldNrows - 1) 0).number)
      !(decide (0 < oldNrows) && less) && l1sortedp data

/-- `columnardb-append`. -/
def columnardbAppend (d : Directory) (dt : DataTable) : Option Directory := do
  let old ← d.metadata
  -- the schemas are compared, and there is no matrix without elements
  if old.ncols ≠ dt.columns.length ∨ old.names ≠ dt.colNames ∨ old.types ≠ dt.colTypes then none
  else if dt.columns ≠ [] ∧ dt.numRows = 0 then none
  else if ∃ ci < dt.columns.length, d.files ci = none then none
  else
    let total := old.nrows + dt.numRows
    let file (ci : ℕ) (col : Column) : Option ColFile :=
      (d.files ci).map fun f => appendCells f col.data total
    let test (ci : ℕ) (col : Column) : Bool :=
      decide (ci ∈ old.sorted) &&
        (file ci col).any fun f => stillSorted old.nrows f col.type col.data
    some {
      metadata := some { old with nrows := total, sorted := columnsWith test dt.columns }
      files := fun ci => (dt.columns[ci]?.bind (file ci)).or (d.files ci) }

/-- The columns of a table, in the order of their files. -/
def readColumns (d : Directory) (nrows : ℕ) : ℕ → List ColType → Option (List Column)
  | _, [] => some []
  | ci, type :: types => do
      -- a table without rows has no files
      let cells ← (if nrows = 0 then some [] else do readColumn nrows type (← d.files ci))
      let columns ← readColumns d nrows (ci + 1) types
      some (⟨type, cells⟩ :: columns)

/-- `columnardb-load-mem`. -/
def columnardbLoadMem (d : Directory) : Option DataTable := do
  let info ← d.metadata
  let columns ← readColumns d info.nrows 0 info.types
  if h : info.names.length = columns.length ∧
      (∀ col ∈ columns, col.cells.length = info.nrows) ∧ info.nrows < 2 ^ 31 then
    some ⟨info.nrows, info.names, columns, h.1, h.2.1, h.2.2⟩
  else none

/-! ## Operations -/

/-- What a program does with the directory.  What `where` answers is a function of the
table that was loaded. -/
inductive Operation
  | save (dt : DataTable)
  | saveCompressed (dt : DataTable) (compressCols : List ℕ)
  | append (dt : DataTable)
  | deleteRows (rows : List ℤ)
  | deleteWhere (answer : DataTable → List ℕ)
  | updateRows (rows : List ℤ) (ci : ℕ) (value : ℤ)
  | updateWhere (answer : DataTable → List ℕ) (ci : ℕ) (value : ℤ)

/-- One operation.  There is no next state where it signals an error. -/
def Operation.step (d : Directory) : Operation → Option Directory
  | .save dt => some (columnardbSave d dt)
  | .saveCompressed dt compressCols => some (columnardbSaveCompressed d dt compressCols)
  | .append dt => columnardbAppend d dt
  | .deleteRows rows => do
      let dt ← columnardbLoadMem d
      some (columnardbSave d (dt.deleteRows rows))
  | .deleteWhere answer => do
      let dt ← columnardbLoadMem d
      match answer dt with
      | [] => some d
      | rows => some (columnardbSave d (dt.deleteRows (rows.map Nat.cast)))
  | .updateRows rows ci value => do
      let dt ← columnardbLoadMem d
      if ci < dt.columns.length then
        let rows := rows.filter fun (ri : ℤ) => 0 ≤ ri ∧ ri < dt.numRows
        some (columnardbSave d (rows.foldl (fun dt (ri : ℤ) => dt.set ri.toNat ci value) dt))
      else none
  | .updateWhere answer ci value => do
      let dt ← columnardbLoadMem d
      if ci < dt.columns.length ∧ ∀ ri ∈ answer dt, ri < dt.numRows then
        match answer dt with
        | [] => some d
        | rows => some (columnardbSave d (rows.foldl (fun dt ri => dt.set ri ci value) dt))
      else none

end Lush.Datatable
