import Lush.Tables.Table
import Lush.Text.Numbers

/-!
# Grouped aggregation

`datatable-group-by` has two ways.  For a column with a pool, it goes through the rows of
every code, which the index of the column has; null values are skipped.  For a column of
numbers, it goes through the rows once, and keeps what it has seen of every group in a hash
table, by the text of the key; null values are values there.
-/

namespace Lush.Tables

open Datatable (ColType StringColumn numberOf)

/-- The operations that are modelled. -/
inductive Op
  | count
  | sum
  | min
  | max
deriving DecidableEq

/-- `(pname op)`. -/
def Op.name : Op → String
  | count => "count"
  | sum => "sum"
  | min => "min"
  | max => "max"

/-- The table of the groups.  The numbers of its second column are `'int` for `count`, and
`'real` otherwise. -/
structure GroupTable where
  groupName : String
  groupType : ColumnType
  aggName : String
  rows : List (Value × ℤ)

/-- `add-column`, twice, and `append-row`. -/
def newGroupTable (groupName : String) (groupType : ColumnType) (aggName : String)
    (rows : List (Value × ℤ)) : Except Fault GroupTable :=
  if aggName = groupName then .error (.error "duplicate column name")
  else .ok ⟨groupName, groupType, aggName, rows⟩

/-! ## Groups of an index -/

/-- The rows of a code, which are the ones of the index between two offsets. -/
def Dictionary.rowsOf {α : Type} (d : Dictionary α) (c : ℕ) : List ℕ :=
  StringColumn.rowsWith d.codes c

/-- `*dt-null-int*`. -/
def dtNullInt : Cell .int := nullCell .int

/-- `_dt-i1count-nonnull`. -/
def countNonnull (data : List (Cell .int)) : ℕ :=
  data.foldl (fun cnt v => if v ≠ dtNullInt then cnt + 1 else cnt) 0

/-- `_dt-i1sum-perm-skipnull`, in an `int`. -/
def sumSkipnull (data : List (Cell .int)) : Cell .int :=
  data.foldl (fun s v => if v ≠ dtNullInt then s + v else s) 0

/-- The least value, when one more is found.  The first one is taken. -/
def lesser : Option ℤ → ℤ → Option ℤ
  | none, v => some v
  | some m, v => if v < m then some v else some m

/-- The greatest value, when one more is found. -/
def greater : Option ℤ → ℤ → Option ℤ
  | none, v => some v
  | some m, v => if m < v then some v else some m

/-- The loop for the least value. -/
def minSkipnull (data : List (Cell .int)) : ℤ :=
  (data.foldl (fun m v => if v ≠ dtNullInt then lesser m v.number else m) none).getD
    dtNullInt.number

/-- The loop for the greatest value. -/
def maxSkipnull (data : List (Cell .int)) : ℤ :=
  (data.foldl (fun m v => if v ≠ dtNullInt then greater m v.number else m) none).getD
    dtNullInt.number

/-- What is computed of the rows of a code. -/
def aggIndexed (data : List (Cell .int)) : Op → ℤ
  | .count => countNonnull data
  | .sum => (sumSkipnull data).number
  | .min => minSkipnull data
  | .max => maxSkipnull data

/-- The loop over the codes in `_groupby-string-indexed` and `_groupby-intcol-indexed`. -/
def groupbyIndexed {α : Type} (value : α → Value) (gc : Dictionary α) (ac : List (Cell .int))
    (op : Op) : Except Fault (List (Value × ℤ)) :=
  (gc.pool.zipIdx.filter fun p => gc.rowsOf p.2 ≠ []).mapM fun p => do
    let data ← gather ac (gc.rowsOf p.2)
    .ok (value p.1, aggIndexed data op)

/-! ## Groups of a hash table -/

/-- The list `(sum count min max)` of a group. -/
structure Acc where
  sum : ℤ
  count : ℕ
  min : ℤ
  max : ℤ

/-- A new group. -/
def Acc.start (av : ℤ) : Acc := ⟨av, 1, av, av⟩

/-- A group with another value. -/
def Acc.add (acc : Acc) (av : ℤ) : Acc :=
  ⟨numberOf (acc.sum + av), acc.count + 1, Min.min acc.min av, Max.max acc.max av⟩

/-- What is given of a group. -/
def Acc.agg (acc : Acc) : Op → ℤ
  | .count => acc.count
  | .sum => acc.sum
  | .min => acc.min
  | .max => acc.max

/-- The text of the key of a group: `%g`. -/
def groupKey {t : ColType} (gv : Cell t) : List UInt8 := Text.strNumber (Text.ofInt gv.number)

/-- The hash table, and the groups in the order in which they came. -/
structure Seen where
  ht : List UInt8 → Option Acc
  groupOrder : List (ℤ × List UInt8)

/-- A row of the pass. -/
def Seen.row {t : ColType} (seen : Seen) (p : Cell t × Cell .int) : Seen :=
  let key := groupKey p.1
  match seen.ht key with
  | some acc => { seen with ht := Function.update seen.ht key (some (acc.add p.2.number)) }
  | none =>
      ⟨Function.update seen.ht key (some (.start p.2.number)),
        seen.groupOrder ++ [(p.1.number, key)]⟩

/-- The pass over the rows. -/
def passGroups {t : ColType} (ps : List (Cell t × Cell .int)) : Seen :=
  ps.foldl Seen.row ⟨fun _ => none, []⟩

/-- `_groupby-numeric`. -/
def groupbyNumeric {t : ColType} (gc : List (Cell t)) (ac : List (Cell .int)) (op : Op) :
    Except Fault (List (Value × ℤ)) :=
  let seen := passGroups (gc.zip ac)
  seen.groupOrder.mapM fun p =>
    match seen.ht p.2 with
    | some acc => .ok (.cell t (BitVec.ofInt _ p.1), acc.agg op)
    | none => .error (.error "not a number")

/-! ## Group by -/

/-- `datatable-group-by`, when values of an `'int` column are aggregated. -/
def DataTable.groupBy (dt : DataTable) (groupCol aggCol : String) (op : Op) :
    Except Fault GroupTable := do
  let gc ← nth (dt.colIndex groupCol) dt.columns
  let ac ← nth (dt.colIndex aggCol) dt.columns
  match ac with
  | .numeric .int data =>
      let aggName := aggCol ++ "_" ++ op.name
      match gc with
      | .string sc => do
          let rows ← groupbyIndexed .string sc data op
          newGroupTable groupCol .string aggName rows
      | .intcol ic => do
          let rows ← groupbyIndexed (.cell .int) ic data op
          newGroupTable groupCol (.numeric .int) aggName rows
      | .numeric t cells => do
          let rows ← groupbyNumeric cells data op
          newGroupTable groupCol (.numeric t) aggName rows
  | _ => .error .unmodelled

end Lush.Tables
