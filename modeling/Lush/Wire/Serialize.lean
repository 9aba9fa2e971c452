import Lush.Tables.Table
import Lush.Text.Quoted
import Lush.Wire.Message

/-!
# Tables in messages

`wire-serialize.lsh` has three encodings of a `DataTable`: a list with the columns, a list with
compressed columns, and the text of an expression.  The columns are matrices and lists of
strings, which `bwrite` and `bread` know.
-/

namespace Lush.Wire

open Datatable (ColType)
open Tables (Column ColumnType Dictionary)
open Text

/-! ## Tables -/

/-- A `DataTable`.  The names of its columns are strings, which the text of a table shows. -/
structure DataTable where
  colNames : List CString
  columns : List Column
  numRows : ℕ

namespace DataTable

/-- Every column has a name of its own, and all rows.  The rows are counted with an `int`. -/
structure Sound (dt : DataTable) : Prop where
  named : dt.colNames.length = dt.columns.length
  distinct : dt.colNames.Nodup
  full : ∀ col ∈ dt.columns, col.values.length = dt.numRows
  small : dt.numRows < 2 ^ 31

/-- `col-types`. -/
def colTypes (dt : DataTable) : List ColumnType := dt.columns.map Column.type

/-- `(new DataTable)`. -/
def new : DataTable := ⟨[], [], 0⟩

/-- `add-column`. -/
def addColumn (dt : DataTable) (name : CString) (type : ColumnType) : Except Fault DataTable :=
  if 0 < dt.numRows then .error (.error "cannot add columns after rows have been appended")
  else if name ∈ dt.colNames then .error (.error "duplicate column name")
  else .ok { dt with
    colNames := dt.colNames ++ [name]
    columns := dt.columns ++ [.new type] }

end DataTable

/-- A table that is in order. -/
structure Table extends DataTable where
  sound : toDataTable.Sound

/-! ## Lists of columns -/

/-- The data of a column: a matrix, or a list of strings. -/
inductive Blob
  | matrix (t : ColType) (cells : List (Tables.Cell t))
  | strings (rows : List CString)

/-- The list that stands for a table, after its tag. -/
structure Packed (γ : Type) where
  names : List CString
  types : List ColumnType
  nrows : ℕ
  cols : List γ

/-- The data of a column, copied into a new matrix or list.  An `IntColumn` is not known. -/
def packColumn : Column → Except Fault Blob
  | .numeric t cells => .ok (.matrix t (cells.map Datatable.Cell.copy))
  | .string sc => .ok (.strings sc.rows)
  | .intcol _ => .error (.error "unknown column type")

/-- `wire-pack-datatable`. -/
def packDatatable (dt : DataTable) : Except Fault (Packed Blob) := do
  let cols ←
    if dt.numRows = 0 then .ok (dt.colTypes.map fun _ => .strings [])
    else dt.columns.mapM packColumn
  .ok ⟨dt.colNames, dt.colTypes, dt.numRows, cols⟩

/-- A column of a type, with some data. -/
def unpackColumn (col : Blob) (type : ColumnType) : Except Fault Column :=
  match type, col with
  | .numeric _, .matrix t cells => .ok (.numeric t cells)
  | .string, .strings rows => .ok (.string (.ofRows rows))
  | .intcol, _ => .error (.error "unknown column type")
  | _, _ => .error .unmodelled

/-- `wire-unpack-datatable`. -/
def unpackDatatable (packed : Packed Blob) : Except Fault DataTable :=
  if packed.nrows = 0 then
    (packed.names.zip packed.types).foldlM (fun dt p => dt.addColumn p.1 p.2) DataTable.new
  else do
    let columns ← (packed.cols.zip packed.types).mapM fun p => unpackColumn p.1 p.2
    .ok ⟨packed.names, columns, packed.nrows⟩

/-! ## Compressed columns -/

/-- `_lz4-byte-transpose`: the bytes of `nelem` elements of some width, first the first byte of
every element, then the second one. -/
def byteTranspose (src : List UInt8) (nelem width : ℕ) : List UInt8 :=
  (List.range width).flatMap fun j => (List.range nelem).map fun i => src.getD (i * width + j) 0

/-- `_lz4-byte-untranspose`. -/
def byteUntranspose (src : List UInt8) (nelem width : ℕ) : List UInt8 :=
  (List.range nelem).flatMap fun i => (List.range width).map fun j => src.getD (j * nelem + i) 0

/-- A new matrix of one dimension. -/
def newMatrix (n : ℕ) : Except Fault Unit :=
  if n = 0 then .error (.error "Cannot compute storage size") else .ok ()

/-- A compressed column, or the bytes of what `bwrite` has written. -/
inductive CompressedColumn
  | compressed (clen nbytes : ℕ) (cbuf : List UInt8)
  | bwrite (blob : List UInt8)

variable (c : Codec Blob)

/-- A column, compressed. -/
def packCompressedColumn (nrows : ℕ) : Column → Except Fault CompressedColumn
  | .numeric .int cells => do
      newMatrix nrows
      let data := cells.map Datatable.Cell.copy
      let raw := Words.write data
      let cbuf := c.lz4Compress (byteTranspose raw nrows 4)
      newMatrix cbuf.length
      .ok (.compressed cbuf.length (nrows * 4) cbuf)
  | .numeric .stamp cells => do
      newMatrix nrows
      let data := cells.map Datatable.Cell.copy
      let bytes ← c.bwriteToBytes (.matrix .stamp data)
      .ok (.bwrite bytes)
  | .string sc => do
      let bytes ← c.bwriteToBytes (.strings sc.rows)
      .ok (.bwrite bytes)
  | .intcol _ => .error (.error "unknown type")

/-- `wire-pack-datatable-compressed`. -/
def packDatatableCompressed (dt : DataTable) : Except Fault (Packed CompressedColumn) := do
  let cols ← dt.columns.mapM (packCompressedColumn c dt.numRows)
  .ok ⟨dt.colNames, dt.colTypes, dt.numRows, cols⟩

/-- The column in some compressed data. -/
def unpackCompressedColumn (nrows : ℕ) (cd : CompressedColumn) (type : ColumnType) :
    Except Fault Column :=
  match cd with
  | .compressed _ nbytes cbuf => do
      newMatrix nbytes
      match c.lz4Decompress cbuf nbytes with
      | none => .error (.error "LZ4 decompress failed")
      | some transposed =>
          if type = .numeric .int then do
            let raw := byteUntranspose transposed nrows 4
            newMatrix nrows
            .ok (.numeric .int (Words.read ColType.int.size nrows raw))
          else .error (.error "unexpected compressed type")
  | .bwrite blob => do
      let obj ← c.breadFromBytes blob
      unpackColumn obj type

/-- `wire-unpack-datatable-compressed`. -/
def unpackDatatableCompressed (packed : Packed CompressedColumn) : Except Fault DataTable := do
  let columns ← (packed.cols.zip packed.types).mapM fun p =>
    unpackCompressedColumn c packed.nrows p.1 p.2
  .ok ⟨packed.names, columns, packed.nrows⟩

/-! ## Expressions -/

/-- `names`, `types`, `nrows` and `data`. -/
def namesName : List UInt8 := ['n', 'a', 'm', 'e', 's'].map ascii
def typesName : List UInt8 := ['t', 'y', 'p', 'e', 's'].map ascii
def nrowsName : List UInt8 := ['n', 'r', 'o', 'w', 's'].map ascii
def dataName : List UInt8 := ['d', 'a', 't', 'a'].map ascii

/-- `(pname type)`. -/
def typeName : ColumnType → List UInt8
  | .numeric .int => ['i', 'n', 't'].map ascii
  | .numeric .stamp => ['s', 't', 'a', 'm', 'p'].map ascii
  | .string => ['s', 't', 'r', 'i', 'n', 'g'].map ascii
  | .intcol => ['i', 'n', 't', 'c', 'o', 'l'].map ascii

/-- The text of a column.  Only a table without rows has columns without data. -/
def columnText (col : Blob) (type : ColumnType) : List UInt8 :=
  match type, col with
  | .string, .strings rows => parens (rows.map fun s => quoted s.bytes)
  | .numeric _, .matrix _ cells => parens (cells.map fun x => strNumber (ofInt x.number))
  | _, _ => parens []

/-- `wire-datatable-to-sexp`. -/
def datatableToSexp (dt : DataTable) : Except Fault (List UInt8) := do
  let packed ← packDatatable dt
  .ok (parens [
    parens [namesName, parens (packed.names.map fun n => quoted n.bytes)],
    parens [typesName, parens (packed.types.map typeName)],
    parens [nrowsName, strNumber (ofInt packed.nrows)],
    parens [dataName, parens ((packed.cols.zip packed.types).map fun p => columnText p.1 p.2)]])

end Lush.Wire
