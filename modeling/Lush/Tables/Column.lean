import Lush.Datatable.ColumnFiles
import Lush.Datatable.Dictionary

/-!
# Columns of a table in memory

A column is a vector of numbers, or it has a pool of values and the code of a value for
every row.  What can be seen of a column is the list of its values.
-/

namespace Lush.Tables

open Datatable (ColType StringColumn stampNull checked)

/-! ## Dictionaries -/

/-- A pool of values, and their codes.  `StringColumn` and `IntColumn` keep their rows so. -/
structure Dictionary (α : Type) where
  pool : List α
  codes : List ℕ
  nodup : pool.Nodup
  valid : ∀ c ∈ codes, c < pool.length

namespace Dictionary

variable {α : Type}

/-- The rows. -/
def rows (d : Dictionary α) : List α := d.codes.filterMap (d.pool[·]?)

/-- The column without rows. -/
def empty (α : Type) : Dictionary α := ⟨[], [], .nil, List.forall_mem_nil _⟩

variable [DecidableEq α]

/-- `append`: a value that is new is put in the pool. -/
def append (d : Dictionary α) (a : α) : Dictionary α :=
  if h : a ∈ d.pool then
    { d with
      codes := d.codes ++ [d.pool.idxOf a]
      valid := by
        simpa [or_imp, forall_and] using ⟨d.valid, List.idxOf_lt_length_of_mem h⟩ }
  else
    { pool := d.pool ++ [a]
      codes := d.codes ++ [d.pool.length]
      nodup := by
        rw [List.nodup_append']
        exact ⟨d.nodup, List.nodup_singleton a, List.disjoint_singleton.mpr h⟩
      valid := by
        intro c hc
        rw [List.length_append, List.length_singleton]
        rcases List.mem_append.mp hc with hc | hc
        · exact (d.valid c hc).trans (Nat.lt_succ_self _)
        · rw [List.mem_singleton.mp hc]
          exact Nat.lt_succ_self _ }

/-- A new column with the rows appended one after the other. -/
def ofRows (rows : List α) : Dictionary α := rows.foldl append (empty α)

/-- `where-eq`: the rows that hold a value, in ascending order. -/
def whereEq (d : Dictionary α) (a : α) : List ℕ := StringColumn.rowsWith d.rows a

omit [DecidableEq α] in
/-- Every row has a value. -/
theorem map_some_rows (d : Dictionary α) : d.rows.map some = d.codes.map (d.pool[·]?) := by
  have hsome : ∀ c ∈ d.codes, ∃ a, d.pool[c]? = some a := fun c hc =>
    ⟨_, List.getElem?_eq_getElem (d.valid c hc)⟩
  rw [rows]
  generalize d.codes = codes at hsome
  induction codes with
  | nil => rfl
  | cons c codes ih =>
      obtain ⟨⟨a, ha⟩, hcodes⟩ := List.forall_mem_cons.mp hsome
      rw [List.filterMap_cons_some ha, List.map_cons, List.map_cons, ih hcodes, ha]

omit [DecidableEq α] in
theorem rows_eq {d : Dictionary α} {rows : List α}
    (h : d.codes.map (d.pool[·]?) = rows.map some) : d.rows = rows :=
  List.map_injective_iff.mpr (Option.some_injective α) ((map_some_rows d).trans h)

omit [DecidableEq α] in
theorem length_rows (d : Dictionary α) : d.rows.length = d.codes.length := by
  have hlen := congrArg List.length (map_some_rows d)
  simpa using hlen

@[simp] theorem rows_append (d : Dictionary α) (a : α) : (d.append a).rows = d.rows ++ [a] := by
  have hold : d.codes.map (d.pool[·]?) = d.rows.map some := (map_some_rows d).symm
  apply rows_eq
  unfold append
  split_ifs with h
  · have hget : d.pool[d.pool.idxOf a]? = some a := by
      rw [List.getElem?_eq_getElem (List.idxOf_lt_length_of_mem h), List.getElem_idxOf]
    simp [hold, hget]
  · -- the old codes are in the old pool
    have hleft : d.codes.map ((d.pool ++ [a])[·]?) = d.codes.map (d.pool[·]?) :=
      List.map_congr_left fun c hc => List.getElem?_append_left (d.valid c hc)
    simp [hleft, hold]

@[simp] theorem rows_ofRows (rows : List α) : (ofRows rows).rows = rows := by
  have hfold : ∀ (rows : List α) (d : Dictionary α),
      (rows.foldl append d).rows = d.rows ++ rows := by
    intro rows
    induction rows with
    | nil => intro d; simp
    | cons a rows ih => intro d; simp [ih]
  exact hfold rows (empty α)

end Dictionary

/-- **A `StringColumn` is seen as a dictionary**: with the same pool, it has the same rows
and finds the same ones. -/
theorem exists_dictionary {σ : Type} [DecidableEq σ] {sc : StringColumn σ} {strings rows : List σ}
    (h : StringColumn.Holds sc strings rows) :
    ∃ d : Dictionary σ, d.pool = strings ∧ d.rows = rows ∧
      ∀ s, sc.whereEq s = .ok (sc.loadPool, d.whereEq s) := by
  have hcodes : ∀ i < rows.length, ∃ c < strings.length, sc.codes[i]? = some c ∧
      strings[c]? = rows[i]? := by
    intro i hi
    obtain ⟨c, hc, hstr⟩ := h.codes i _ (List.getElem?_eq_getElem hi)
    exact ⟨c, (List.getElem?_eq_some_iff.mp hstr).1, hc,
      hstr.trans (List.getElem?_eq_getElem hi).symm⟩
  have hle : rows.length ≤ sc.codes.length := by
    rw [h.capacity, ← h.numRows]
    exact h.le
  have hvalid : ∀ c ∈ sc.codes.take rows.length, c < strings.length := by
    intro c hc
    obtain ⟨i, hi, rfl⟩ := List.getElem_of_mem hc
    rw [List.length_take, lt_min_iff] at hi
    obtain ⟨c, hlt, hget, -⟩ := hcodes i hi.1
    rw [List.getElem?_eq_getElem hi.2, Option.some.injEq] at hget
    rw [List.getElem_take, hget]
    exact hlt
  have hrows : (⟨strings, _, h.nodup, hvalid⟩ : Dictionary σ).rows = rows := by
    apply Dictionary.rows_eq
    refine List.ext_getElem (by simpa using hle) fun i hi hi' => ?_
    have hlt : i < rows.length := by simpa using hi'
    obtain ⟨c, -, hget, hstr⟩ := hcodes i hlt
    rw [List.getElem?_eq_getElem (by omega), Option.some.injEq] at hget
    rw [List.getElem_map, List.getElem_map, List.getElem_take, hget, hstr,
      List.getElem?_eq_getElem hlt]
  refine ⟨_, rfl, hrows, fun s => ?_⟩
  rw [Dictionary.whereEq, hrows]
  exact h.whereEq s

/-! ## Columns -/

/-- An element of a column of numbers. -/
abbrev Cell (t : ColType) := Datatable.Cell t

/-- The symbol of a column type. -/
inductive ColumnType
  | numeric (t : ColType)
  | string
  | intcol
deriving DecidableEq

/-- An element of a column. -/
inductive Value
  | cell (t : ColType) (x : Cell t)
  | string (s : CString)
deriving DecidableEq

/-- A column, with the elements that are rows. -/
inductive Column
  | numeric (t : ColType) (cells : List (Cell t))
  | string (sc : Dictionary CString)
  | intcol (ic : Dictionary (Cell .int))

/-- The null of an `int-matrix` or a `long-matrix`: `*dt-null-int*`, `*td-stamp-null*`. -/
def nullCell : (t : ColType) → Cell t
  | .int => BitVec.ofInt _ (-2 ^ 31)
  | .stamp => stampNull

/-- The empty string. -/
def emptyString : CString := ⟨[], List.not_mem_nil⟩

/-- `dt-null`. -/
def dtNull : ColumnType → Value
  | .numeric t => .cell t (nullCell t)
  | .intcol => .cell .int (nullCell .int)
  | .string => .string emptyString

namespace Column

def type : Column → ColumnType
  | numeric t _ => .numeric t
  | string _ => .string
  | intcol _ => .intcol

/-- The values of the rows. -/
def values : Column → List Value
  | numeric t cells => cells.map (.cell t)
  | string sc => sc.rows.map .string
  | intcol ic => ic.rows.map (.cell .int)

/-- The stamps are the same as numbers. -/
def Exact : Column → Prop
  | numeric _ cells => ∀ x ∈ cells, x.Exact
  | _ => True

/-- A new column of a type. -/
def new : ColumnType → Column
  | .numeric t => numeric t []
  | .string => string (.empty _)
  | .intcol => intcol (.empty _)

@[simp] theorem type_new (t : ColumnType) : (new t).type = t := by
  cases t <;> rfl

@[simp] theorem values_new (t : ColumnType) : (new t).values = [] := by
  cases t <;> rfl

end Column

end Lush.Tables
