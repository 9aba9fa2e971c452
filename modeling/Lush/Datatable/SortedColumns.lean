import Lush.Datatable.ColumnFiles
import Lush.Library.Runs

/-!
# The list of the columns in order

`meta.lsh` lists the columns whose rows are in nondecreasing order.  Saving a table
finds them anew.  `columnardb-append` keeps a column of the list when the new rows are in
order, but for an `'int` column it does not compare them with the rows that are there
(`appended_below`), and to a column that is stored by its runs or by its differences it
appends cells that are read as something else.  The list is truthful in every state of a
run if and only if every block that stays in the list fits after the last row
(`sorted_truthful`).
-/

namespace Lush.Datatable

open Encodings Runs

variable {t : ColType} {d d' : Directory} {dt : DataTable} {f : ColFile}

/-! ## The block and the last row -/

/-- The block fits after the last row: it is not below it, where the file is read as it
is; the last row is not above the zeros that a file of runs gives; and the block, added
up on the last row, does not decrease, where the file is one of differences.  The stamps
of a file that is read as it is are compared by `columnardb-append`. -/
def Fits (code : Typecode) : (t : ColType) → Cell t → List (Cell t) → Prop
  | .int, last, data =>
      if code = .rleInt32 then last.toInt ≤ 0 else last.toInt ≤ (data.headD 0).toInt
  | .stamp, last, data => code = .deltaLong → i1sortedp (last :: sumsFrom last data)

theorem inOrder_cons_iff {last : Cell t} {data : List (Cell t)} (hne : data ≠ [])
    (hdata : InOrder data) : InOrder (last :: data) ↔ last.toInt ≤ (data.headD 0).toInt := by
  obtain ⟨x, data, rfl⟩ := List.exists_cons_of_ne_nil hne
  unfold InOrder at hdata ⊢
  rw [← List.isChain_iff_pairwise] at hdata ⊢
  rw [List.map_cons, List.map_cons, List.isChain_cons_cons, List.headD_cons]
  exact and_iff_left hdata

theorem inOrder_replicate (n : ℕ) (x : Cell t) : InOrder (List.replicate n x) := by
  unfold InOrder
  rw [List.map_replicate]
  exact List.pairwise_replicate.mpr (Or.inr le_rfl)

theorem getLastD_rows (rows : List (Cell t)) :
    rows.getLastD 0 = rows.getD (rows.length - 1) 0 := by
  rcases List.eq_nil_or_concat rows with rfl | ⟨init, last, rfl⟩
  · rfl
  · simp

/-- The stamps that `columnardb-append` has compared. -/
theorem le_of_stillSorted {rows data : List (Cell .stamp)} (hrows : ∀ x ∈ rows, x.Exact)
    (hdata : ∀ x ∈ data, x.Exact) (hne : rows ≠ []) (hdne : data ≠ [])
    (hbytes : f.bytes = Words.write rows) (h : stillSorted rows.length f .stamp data) :
    (rows.getLastD 0).toInt ≤ (data.headD 0).toInt := by
  have hread : readCells .stamp rows.length f = rows :=
    readCells_write rfl (hbytes.trans (List.append_nil _).symm)
  have hpos : 0 < rows.length := List.length_pos_iff.mpr hne
  have hlast : (rows.getLastD 0).Exact := by
    obtain ⟨init, last, rfl⟩ := (List.eq_nil_or_concat rows).resolve_left hne
    exact hrows _ (by simp)
  have hhead : (data.headD 0).Exact := by
    obtain ⟨x, data, rfl⟩ := List.exists_cons_of_ne_nil hdne
    exact hdata _ (by simp)
  unfold Cell.Exact at hlast hhead
  simp only [stillSorted, hread, ← getLastD_rows, hlast, hhead, hpos] at h
  simp only [decide_true, Bool.true_and, Bool.and_eq_true, Bool.not_eq_true',
    decide_eq_false_iff_not, not_lt] at h
  exact h.1

/-- **A block that the test of an append lets through is read in order after the last row
if and only if it fits.** -/
theorem Stores.inOrder_readAs_iff {rows data : List (Cell t)} (h : Stores f t rows)
    (hne : rows ≠ []) (hdne : data ≠ []) (hexact : ∀ x ∈ data, x.Exact)
    (hstill : stillSorted rows.length f t data) :
    InOrder (rows.getLastD 0 :: readAs f.typecode t (rows.getLastD 0) data) ↔
      Fits f.typecode t (rows.getLastD 0) data := by
  cases h with
  | raw hcode hbytes hrows =>
      rw [readAs_raw hcode]
      cases t with
      | int =>
          have hraw : f.typecode ≠ .rleInt32 := hcode
          rw [inOrder_cons_iff hdne (i1sortedp_iff.mp hstill), Fits, if_neg hraw]
      | stamp =>
          have hdata : InOrder data := inOrder_of_sortedp (Bool.and_eq_true_iff.mp hstill).2
          rw [inOrder_cons_iff hdne hdata]
          refine ⟨fun _ hdelta => absurd hdelta hcode, fun _ => ?_⟩
          exact le_of_stillSorted hrows hexact hne hdne hbytes hstill
  | deltas hcode hbytes =>
      rw [readAs, if_pos hcode, ← i1sortedp_iff]
      exact ⟨fun h _ => h, fun h => h hcode⟩
  | runs hcode hbytes _ _ =>
      have hzeros : List.replicate data.length (0 : Cell .int) ≠ [] := by
        simpa using hdne
      rw [readAs, if_pos hcode, inOrder_cons_iff hzeros (inOrder_replicate _ _), Fits, if_pos hcode]
      obtain ⟨x, data, rfl⟩ := List.exists_cons_of_ne_nil hdne
      rw [List.length_cons, List.replicate_succ, List.headD_cons]
      rfl

/-! ## What a directory records -/

/-- The files of the columns that are listed, whatever their order. -/
def Recorded (d : Directory) : Prop :=
  ∀ (info : Metadata), d.metadata = some info → ∀ ci ∈ info.sorted,
    ∃ t f rows, info.types[ci]? = some t ∧ d.files ci = some f ∧ Stores f t rows ∧
      rows.length = info.nrows ∧ rows ≠ []

/-- Every column that is listed can be loaded, and its rows are in nondecreasing order. -/
def Truthful (d : Directory) : Prop :=
  ∀ (info : Metadata), d.metadata = some info → ∀ ci ∈ info.sorted,
    ∃ t f rows, info.types[ci]? = some t ∧ d.files ci = some f ∧
      readColumn info.nrows t f = some rows ∧ rows.length = info.nrows ∧
      (rows.map BitVec.toInt).Pairwise (· ≤ ·)

theorem recorded_new : Recorded Directory.new := fun _ h => nomatch h

theorem truthful_new : Truthful Directory.new := fun _ h => nomatch h

theorem mem_columnsWith {test : ℕ → Column → Bool} {columns : List Column} {ci : ℕ} :
    ci ∈ columnsWith test columns ↔ ∃ col, columns[ci]? = some col ∧ test ci col := by
  unfold columnsWith
  simp only [List.mem_map, List.mem_filter, List.mem_zipIdx_iff_getElem?]
  refine ⟨?_, ?_⟩
  · rintro ⟨⟨col, i⟩, ⟨hcol, htest⟩, rfl⟩
    exact ⟨col, hcol, htest⟩
  · rintro ⟨col, hcol, htest⟩
    exact ⟨(col, ci), ⟨hcol, htest⟩, rfl⟩

theorem exact_data (col : Column) : ∀ x ∈ col.data, x.Exact := by
  intro x hx
  obtain ⟨y, -, rfl⟩ := List.mem_map.mp hx
  exact y.exact_copy

theorem length_data {ci : ℕ} {col : Column} (h : dt.columns[ci]? = some col) :
    col.data.length = dt.numRows := by
  rw [Column.data, List.length_map]
  exact dt.full col (List.mem_of_getElem? h)

theorem colTypes_getElem? {ci : ℕ} {col : Column} (h : dt.columns[ci]? = some col) :
    dt.colTypes[ci]? = some col.type := by
  rw [DataTable.colTypes, List.getElem?_map, h]
  rfl

/-- **A table that is written as a whole.** -/
theorem writeTable_truthful {file : ℕ → Column → ColFile}
    (hfile : ∀ ci col, dt.columns[ci]? = some col → Stores (file ci col) col.type col.data) :
    Recorded (d.writeTable dt file) ∧ Truthful (d.writeTable dt file) := by
  have hlisted : ∀ ci ∈ sortedCols dt, ∃ col, dt.columns[ci]? = some col ∧ 0 < dt.numRows ∧
      InOrder col.data ∧ (d.writeTable dt file).files ci = some (file ci col) := by
    intro ci hci
    unfold sortedCols at hci
    split_ifs at hci with hpos
    · obtain ⟨col, hcol, htest⟩ := mem_columnsWith.mp hci
      refine ⟨col, hcol, hpos, inOrder_of_sortedp htest, ?_⟩
      rw [Directory.writeTable]
      simp [hpos, hcol]
    · simp at hci
  refine ⟨?_, ?_⟩
  · rintro info ⟨rfl⟩ ci hci
    obtain ⟨col, hcol, hpos, -, hf⟩ := hlisted ci hci
    have hlen := length_data hcol
    refine ⟨col.type, _, col.data, colTypes_getElem? hcol, hf, hfile ci col hcol, hlen, ?_⟩
    rintro hnil
    rw [hnil] at hlen
    simp at hlen
    omega
  · rintro info ⟨rfl⟩ ci hci
    obtain ⟨col, hcol, -, horder, hf⟩ := hlisted ci hci
    have hlen := length_data hcol
    have hread := (hfile ci col hcol).readColumn
    rw [hlen] at hread
    exact ⟨col.type, _, col.data, colTypes_getElem? hcol, hf, hread, hlen, horder⟩

theorem columnardbSave_truthful (d : Directory) (dt : DataTable) :
    Recorded (columnardbSave d dt) ∧ Truthful (columnardbSave d dt) :=
  writeTable_truthful fun _ col _ => stores_writeCells (exact_data col)

theorem columnardbSaveCompressed_truthful (d : Directory) (dt : DataTable)
    (compressCols : List ℕ) : Recorded (columnardbSaveCompressed d dt compressCols) ∧
      Truthful (columnardbSaveCompressed d dt compressCols) := by
  unfold columnardbSaveCompressed
  refine writeTable_truthful fun ci col hcol => ?_
  have hsmall : col.data.length < 2 ^ 31 := length_data hcol ▸ dt.small
  split_ifs
  · exact stores_compressCells hsmall
  · exact stores_writeCells (exact_data col)
  · exact stores_compressCells hsmall
  · exact stores_writeCells (exact_data col)

/-! ## What an append does -/

/-- The test of `columnardb-append` for a column and its file. -/
def stays (old : Metadata) (dt : DataTable) (d : Directory) (ci : ℕ) (col : Column) : Bool :=
  decide (ci ∈ old.sorted) && ((d.files ci).map fun f =>
    appendCells f col.data (old.nrows + dt.numRows)).any fun f =>
      stillSorted old.nrows f col.type col.data

theorem columnardbAppend_cases (h : columnardbAppend d dt = some d') :
    ∃ old, d.metadata = some old ∧ old.types = dt.colTypes ∧
      (dt.columns ≠ [] → 0 < dt.numRows) ∧
      (∀ ci < dt.columns.length, ∃ f, d.files ci = some f) ∧
      d'.metadata = some { old with
        nrows := old.nrows + dt.numRows
        sorted := columnsWith (stays old dt d) dt.columns } ∧
      ∀ ci col f, dt.columns[ci]? = some col → d.files ci = some f →
        d'.files ci = some (appendCells f col.data (old.nrows + dt.numRows)) := by
  unfold columnardbAppend at h
  obtain ⟨old, hold, h⟩ := Option.bind_eq_some_iff.mp h
  split_ifs at h with hschema hempty hfiles
  cases h
  push Not at hschema hempty hfiles
  refine ⟨old, hold, hschema.2.2, fun hne => Nat.pos_of_ne_zero (hempty hne), ?_, rfl, ?_⟩
  · intro ci hci
    exact Option.ne_none_iff_exists'.mp (hfiles ci hci)
  · intro ci col f hcol hf
    simp [hcol, hf]

/-- A column that stays in the list, with its file and the rows of the file. -/
structure Appended (old : Metadata) (dt : DataTable) (d : Directory) (ci : ℕ) (col : Column)
    (f : ColFile) (rows : List (Cell col.type)) : Prop where
  listed : ci ∈ old.sorted
  column : dt.columns[ci]? = some col
  file : d.files ci = some f
  stores : Stores f col.type rows
  length : rows.length = old.nrows
  nonempty : rows ≠ []
  stillSorted : stillSorted old.nrows f col.type col.data

section Append

variable {old : Metadata} {ci : ℕ} {col : Column} {rows : List (Cell col.type)}

theorem Recorded.exists_stores (hrec : Recorded d) (hold : d.metadata = some old)
    (htypes : old.types = dt.colTypes) (hci : ci ∈ old.sorted)
    (hcol : dt.columns[ci]? = some col) :
    ∃ f rows, d.files ci = some f ∧ Stores f col.type rows ∧ rows.length = old.nrows ∧
      rows ≠ [] := by
  obtain ⟨t, f, rows, ht, hf, hstores, hlen, hne⟩ := hrec old hold ci hci
  rw [htypes, colTypes_getElem? hcol] at ht
  cases ht
  exact ⟨f, rows, hf, hstores, hlen, hne⟩

/-- The columns of the new list. -/
theorem exists_appended (hrec : Recorded d) (hold : d.metadata = some old)
    (htypes : old.types = dt.colTypes) (hci : ci ∈ columnsWith (stays old dt d) dt.columns) :
    ∃ col f rows, Appended old dt d ci col f rows := by
  obtain ⟨col, hcol, hstays⟩ := mem_columnsWith.mp hci
  obtain ⟨hlisted, hstill⟩ := Bool.and_eq_true_iff.mp hstays
  have hlisted : ci ∈ old.sorted := of_decide_eq_true hlisted
  obtain ⟨f, rows, hf, hstores, hlen, hne⟩ := hrec.exists_stores hold htypes hlisted hcol
  refine ⟨col, f, rows, hlisted, hcol, hf, hstores, hlen, hne, ?_⟩
  rw [hf, Option.map_some, Option.any_some, ← hlen, hstores.stillSorted_appendCells] at hstill
  rwa [← hlen]

theorem Appended.mem (h : Appended old dt d ci col f rows) :
    ci ∈ columnsWith (stays old dt d) dt.columns := by
  refine mem_columnsWith.mpr ⟨col, h.column, ?_⟩
  refine Bool.and_eq_true_iff.mpr ⟨decide_eq_true h.listed, ?_⟩
  have hstill := h.stillSorted
  rw [h.file, Option.map_some, Option.any_some]
  rwa [← h.length, h.stores.stillSorted_appendCells, h.length]

theorem Appended.data_ne_nil (h : Appended old dt d ci col f rows)
    (hpos : dt.columns ≠ [] → 0 < dt.numRows) : col.data ≠ [] := by
  have hlen := length_data h.column
  have hcolumns : dt.columns ≠ [] := List.ne_nil_of_mem (List.mem_of_getElem? h.column)
  exact List.ne_nil_of_length_pos (hlen ▸ hpos hcolumns)

/-- The rows of the file after the append. -/
theorem Appended.stores_appendCells (h : Appended old dt d ci col f rows) (total : ℕ) :
    Stores (appendCells f col.data total) col.type
      (rows ++ readAs f.typecode col.type (rows.getLastD 0) col.data) :=
  h.stores.appendCells (exact_data col) total

theorem Appended.length_append (h : Appended old dt d ci col f rows) :
    (rows ++ readAs f.typecode col.type (rows.getLastD 0) col.data).length =
      old.nrows + dt.numRows := by
  rw [List.length_append, length_readAs, h.length, length_data h.column]

theorem Appended.inOrder (h : Appended old dt d ci col f rows) (htruth : Truthful d)
    (hold : d.metadata = some old) (htypes : old.types = dt.colTypes) : InOrder rows := by
  obtain ⟨t, f', rows', ht, hf', hread, hlen, horder⟩ := htruth old hold ci h.listed
  rw [htypes, colTypes_getElem? h.column] at ht
  cases ht
  cases h.file.symm.trans hf'
  have hrows := h.stores.readColumn
  rw [h.length, hread] at hrows
  cases hrows
  exact horder

/-- **The rows of a listed column after an append.** -/
theorem Appended.inOrder_iff (h : Appended old dt d ci col f rows)
    (hpos : dt.columns ≠ [] → 0 < dt.numRows) (hrows : InOrder rows) :
    InOrder (rows ++ readAs f.typecode col.type (rows.getLastD 0) col.data) ↔
      Fits f.typecode col.type (rows.getLastD 0) col.data := by
  rw [inOrder_append h.nonempty hrows]
  refine h.stores.inOrder_readAs_iff h.nonempty (h.data_ne_nil hpos) (exact_data col) ?_
  rw [h.length]
  exact h.stillSorted

end Append

/-! ## Runs -/

/-- The blocks that stay in the list fit after the last row. -/
def Operation.Fits (d : Directory) : Operation → Prop
  | .append dt => ∀ (info : Metadata), d.metadata = some info → ∀ ci ∈ info.sorted,
      ∀ col f rows, dt.columns[ci]? = some col → d.files ci = some f →
        readColumn info.nrows col.type f = some rows →
        stillSorted info.nrows f col.type col.data →
        Datatable.Fits f.typecode col.type (rows.getLastD 0) col.data
  | _ => True

/-- **What one append does to the list.** -/
theorem columnardbAppend_truthful_iff (hrec : Recorded d) (htruth : Truthful d)
    (h : columnardbAppend d dt = some d') :
    Recorded d' ∧ (Truthful d' ↔ Operation.Fits d (.append dt)) := by
  obtain ⟨old, hold, htypes, hpos, -, hmeta, hfiles⟩ := columnardbAppend_cases h
  have hinfo : ∀ info, d'.metadata = some info → info = { old with
      nrows := old.nrows + dt.numRows
      sorted := columnsWith (stays old dt d) dt.columns } := fun info hd' =>
    Option.some.inj (hd'.symm.trans hmeta)
  have htype : ∀ {ci col f rows}, Appended old dt d ci col f rows →
      old.types[ci]? = some col.type := fun happ => htypes ▸ colTypes_getElem? happ.column
  refine ⟨?_, ?_, ?_⟩
  · intro info hd' ci hci
    obtain rfl := hinfo info hd'
    obtain ⟨col, f, rows, happ⟩ := exists_appended hrec hold htypes hci
    refine ⟨col.type, _, _, htype happ, hfiles ci col f happ.column happ.file,
      happ.stores_appendCells _, happ.length_append, ?_⟩
    exact List.append_ne_nil_of_left_ne_nil happ.nonempty _
  · intro hd' info hinfo' ci hci col f rows hcol hf hread hstill
    cases hold.symm.trans hinfo'
    obtain ⟨f', rows', hf', hstores, hlen, hne⟩ := hrec.exists_stores hold htypes hci hcol
    cases hf.symm.trans hf'
    have hrows := hstores.readColumn
    rw [hlen, hread] at hrows
    cases hrows
    have happ : Appended old dt d ci col f rows := ⟨hci, hcol, hf, hstores, hlen, hne, hstill⟩
    obtain ⟨t, f'', rows'', ht, hf'', hread', -, horder⟩ := hd' _ hmeta ci happ.mem
    cases (htype happ).symm.trans ht
    cases (hfiles ci col f hcol hf).symm.trans hf''
    have hrows := (happ.stores_appendCells (old.nrows + dt.numRows)).readColumn
    rw [happ.length_append, hread'] at hrows
    cases hrows
    exact (happ.inOrder_iff hpos (happ.inOrder htruth hold htypes)).mp horder
  · intro hfits info hd' ci hci
    obtain rfl := hinfo info hd'
    obtain ⟨col, f, rows, happ⟩ := exists_appended hrec hold htypes hci
    have hread := happ.stores.readColumn
    rw [happ.length] at hread
    have hfit := hfits old hold ci happ.listed col f rows happ.column happ.file hread
      happ.stillSorted
    have hread' := (happ.stores_appendCells (old.nrows + dt.numRows)).readColumn
    rw [happ.length_append] at hread'
    refine ⟨col.type, _, _, htype happ, hfiles ci col f happ.column happ.file, hread',
      happ.length_append, ?_⟩
    exact (happ.inOrder_iff hpos (happ.inOrder htruth hold htypes)).mpr hfit

/-- An operation saves a table, appends one, or leaves the directory as it is. -/
theorem Operation.step_cases {op : Operation} (h : op.step d = some d') :
    (∃ dt, op = .append dt ∧ columnardbAppend d dt = some d') ∨
      Operation.Fits d op ∧ (d' = d ∨ Recorded d' ∧ Truthful d') := by
  cases op with
  | append dt => exact .inl ⟨dt, rfl, h⟩
  | save dt =>
      cases h
      exact .inr ⟨trivial, .inr (columnardbSave_truthful d dt)⟩
  | saveCompressed dt compressCols =>
      cases h
      exact .inr ⟨trivial, .inr (columnardbSaveCompressed_truthful d dt compressCols)⟩
  | deleteRows rows =>
      obtain ⟨dt, -, h⟩ := Option.bind_eq_some_iff.mp h
      cases h
      exact .inr ⟨trivial, .inr (columnardbSave_truthful d _)⟩
  | deleteWhere answer =>
      obtain ⟨dt, -, h⟩ := Option.bind_eq_some_iff.mp h
      refine .inr ⟨trivial, ?_⟩
      split at h
      · exact .inl (Option.some.inj h).symm
      · cases h
        exact .inr (columnardbSave_truthful d _)
  | updateRows rows ci value =>
      obtain ⟨dt, -, h⟩ := Option.bind_eq_some_iff.mp h
      split_ifs at h
      cases h
      exact .inr ⟨trivial, .inr (columnardbSave_truthful d _)⟩
  | updateWhere answer ci value =>
      obtain ⟨dt, -, h⟩ := Option.bind_eq_some_iff.mp h
      split_ifs at h
      refine .inr ⟨trivial, ?_⟩
      split at h
      · exact .inl (Option.some.inj h).symm
      · cases h
        exact .inr (columnardbSave_truthful d _)

theorem Operation.step_truthful_iff {op : Operation} (hrec : Recorded d) (htruth : Truthful d)
    (h : op.step d = some d') : Recorded d' ∧ (Truthful d' ↔ op.Fits d) := by
  rcases op.step_cases h with ⟨dt, rfl, happend⟩ | ⟨hfits, rfl | ⟨hrec', htruth'⟩⟩
  · exact columnardbAppend_truthful_iff hrec htruth happend
  · exact ⟨hrec, iff_of_true htruth hfits⟩
  · exact ⟨hrec', iff_of_true htruth' hfits⟩

/-- **The list of the columns in order is truthful in every state of a run if and only if
every block that stays in the list fits after the last row.** -/
theorem sorted_truthful {ops : List Operation} (h : run Operation.step Directory.new ops = some d) :
    (∀ (before : List Operation) (d' : Directory), before <+: ops →
        run Operation.step Directory.new before = some d' → Truthful d') ↔
      Along Operation.step Operation.Fits Directory.new ops :=
  throughout_iff_along (fun _ _ _ => Operation.step_truthful_iff) recorded_new truthful_new h

/-- A table with one column, of type `'int`. -/
def intTable (cells : List (Cell .int)) (small : cells.length < 2 ^ 31) : DataTable where
  numRows := cells.length
  colNames := ["x"]
  columns := [⟨.int, cells⟩]
  named := rfl
  full := by simp
  small := small

theorem data_int (cells : List (Cell .int)) : Column.data ⟨.int, cells⟩ = cells := by
  have hcopy : ∀ x : Cell .int, x.copy = x := by
    intro x
    have hexact : x.number = x.toInt := x.exact_int
    rw [Cell.copy, hexact, BitVec.ofInt_toInt]
  exact (List.map_congr_left fun x _ => hcopy x).trans (List.map_id cells)

/-- The file of the column of a table. -/
theorem readColumn_intTable (cells : List (Cell .int)) :
    readColumn cells.length .int (writeCells .int (Column.data ⟨.int, cells⟩)) = some cells := by
  rw [data_int]
  exact (stores_writeCells fun x _ => x.exact_int).readColumn

theorem sorted_truthful_small : ∃ d, run Operation.step Directory.new
    [.save (intTable [1] (by decide)), .append (intTable [5] (by decide))] = some d ∧
      Truthful d := by
  obtain ⟨d, hd⟩ : ∃ d, columnardbAppend (columnardbSave Directory.new (intTable [1] (by decide)))
      (intTable [5] (by decide)) = some d := ⟨_, rfl⟩
  have hrun : run Operation.step Directory.new
      [.save (intTable [1] (by decide)), .append (intTable [5] (by decide))] = some d :=
    run_cons.mpr ⟨_, rfl, run_cons.mpr ⟨d, hd, rfl⟩⟩
  refine ⟨d, hrun, (sorted_truthful hrun).mpr ⟨trivial, ?_, ?_⟩ _ d (List.prefix_refl _) hrun⟩
  · rintro info ⟨rfl⟩ ci - col f rows hcol hf hread -
    rcases ci with _ | ci
    · cases hcol
      cases hf
      cases (readColumn_intTable [1]).symm.trans hread
      show (1 : Cell .int).toInt ≤ (List.headD (Column.data ⟨.int, [5]⟩) 0).toInt
      rw [data_int]
      decide
    · simp [intTable] at hcol
  · have hstep : Operation.step (columnardbSave Directory.new (intTable [1] (by decide)))
        (.append (intTable [5] (by decide))) = some d := hd
    rw [hstep]
    trivial

/-- A row is appended that is less than the row before it. -/
theorem appended_below : ∃ d, run Operation.step Directory.new
    [.save (intTable [5] (by decide)), .append (intTable [1] (by decide))] = some d ∧
      ¬Truthful d := by
  obtain ⟨hrec, htruth⟩ := columnardbSave_truthful Directory.new (intTable [5] (by decide))
  obtain ⟨d, hd⟩ : ∃ d, columnardbAppend (columnardbSave Directory.new (intTable [5] (by decide)))
      (intTable [1] (by decide)) = some d := ⟨_, rfl⟩
  refine ⟨d, run_cons.mpr ⟨_, rfl, run_cons.mpr ⟨d, hd, rfl⟩⟩, fun htruth' => ?_⟩
  have hfits := (columnardbAppend_truthful_iff hrec htruth hd).2.mp htruth'
  have hfit : (5 : Cell .int).toInt ≤ (List.headD (Column.data ⟨.int, [1]⟩) 0).toInt :=
    hfits _ rfl 0 (by decide) ⟨.int, [1]⟩ _ [5] rfl rfl (readColumn_intTable [5]) rfl
  rw [data_int] at hfit
  exact absurd hfit (by decide)

end Lush.Datatable
