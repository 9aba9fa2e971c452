import Lush.Wire.Serialize

/-!
# Tables survive, except some

A table that is packed and unpacked has its values again when its columns can be copied: a
column is copied with numbers, and there is no case for an `IntColumn`.  The list of columns
knows tables without rows; the compressed columns do not, since there are no matrices without
elements.  In the text of a table, names and strings stand between quotes as they are, and come
back when they are `Quotable`.
-/

namespace Lush.Wire

open Datatable (ColType)
open Tables (Column ColumnType Dictionary Value)
open Text

/-! ## What it means to survive -/

/-- Two tables with the same names, types and values. -/
structure Same (dt dt' : DataTable) : Prop where
  names : dt'.colNames = dt.colNames
  types : dt'.colTypes = dt.colTypes
  rows : dt'.numRows = dt.numRows
  values : dt'.columns.map Column.values = dt.columns.map Column.values

/-- `wire-unpack-datatable` undoes `wire-pack-datatable`. -/
def PlainSurvives (dt : DataTable) : Prop :=
  ∃ packed dt', packDatatable dt = .ok packed ∧ unpackDatatable packed = .ok dt' ∧ Same dt dt'

/-- `wire-unpack-datatable-compressed` undoes `wire-pack-datatable-compressed`. -/
def CompressedSurvives (c : Codec Blob) (dt : DataTable) : Prop :=
  ∃ packed dt', packDatatableCompressed c dt = .ok packed ∧
    unpackDatatableCompressed c packed = .ok dt' ∧ Same dt dt'

/-- The expression for a value. -/
def valueTree : Value → Tree
  | .cell _ x => .number (ofInt x.toInt)
  | .string s => .string s.bytes

/-- `((names ..) (types ..) (nrows n) (data ..))`. -/
def sexpTree (dt : DataTable) : Tree :=
  .list [
    .list [.symbol namesName, .list (dt.colNames.map fun n => .string n.bytes)],
    .list [.symbol typesName, .list (dt.colTypes.map fun type => .symbol (typeName type))],
    .list [.symbol nrowsName, .number (ofInt dt.numRows)],
    .list [.symbol dataName, .list (dt.columns.map fun col => .list (col.values.map valueTree))]]

/-- The text of a table is read as the expression for it. -/
def SexpReads (caseSensitive : Bool) (dt : DataTable) : Prop :=
  ∃ text, datatableToSexp dt = .ok text ∧ readSexp caseSensitive text = .ok (sexpTree dt)

/-- All columns have integers or strings. -/
def DataTable.Plain (dt : DataTable) : Prop :=
  ∀ col ∈ dt.columns, col.type = .numeric .int ∨ col.type = .string

/-- A table survives all encodings; the text is for integers and strings. -/
structure Survives (c : Codec Blob) (caseSensitive : Bool) (dt : DataTable) : Prop where
  plain : PlainSurvives dt
  compressed : CompressedSurvives c dt
  sexp : dt.Plain → SexpReads caseSensitive dt

/-! ## When it does -/

/-- A column can be copied: it is no `IntColumn`, and its stamps are the same as numbers. -/
def Copyable (col : Column) : Prop := col.type ≠ .intcol ∧ col.Exact

/-- Names and strings can be written between quotes. -/
structure DataTable.Quotable (dt : DataTable) : Prop where
  names : ∀ name ∈ dt.colNames, Text.Quotable name.bytes
  strings : ∀ col ∈ dt.columns, ∀ s, .string s ∈ col.values → Text.Quotable s.bytes

/-- All columns can be copied, a table without rows has only columns of strings, and a table of
integers and strings can be written between quotes. -/
structure DataTable.Portable (dt : DataTable) : Prop where
  copyable : ∀ col ∈ dt.columns, Copyable col
  rows : dt.numRows = 0 → ∀ col ∈ dt.columns, col.type = .string
  quotable : dt.Plain → dt.Quotable

/-- `bwrite` and `bread` are faithful, and compression is lossless. -/
structure Codec.Lossless (c : Codec Blob) : Prop where
  writes : ∀ v, ∃ bytes, c.bwrite v = some bytes
  faithful : c.Faithful
  compress : ∀ bytes, bytes ≠ [] → c.lz4Compress bytes ≠ [] ∧
    c.lz4Decompress (c.lz4Compress bytes) bytes.length = some bytes

/-! ## Columns -/

variable {c : Codec Blob} {dt : DataTable} {col : Column}

theorem copy_eq_self_iff {t : ColType} (x : Tables.Cell t) :
    Datatable.Cell.copy x = x ↔ x.Exact := by
  constructor
  · intro heq
    rw [← heq]
    exact Datatable.Cell.exact_copy x
  · intro hexact
    rw [Datatable.Cell.copy, show x.number = x.toInt from hexact, BitVec.ofInt_toInt]

theorem map_copy_eq_iff {t : ColType} (cells : List (Tables.Cell t)) :
    cells.map Datatable.Cell.copy = cells ↔ ∀ x ∈ cells, x.Exact := by
  induction cells with
  | nil => simp
  | cons x cells ih =>
      rw [List.map_cons, List.cons.injEq, copy_eq_self_iff, ih, List.forall_mem_cons]

/-- The column comes back with its type and its values. -/
def Returns {γ : Type} (f : Column → Except Fault γ) (g : γ → ColumnType → Except Fault Column)
    (col : Column) : Prop :=
  ∃ b col', f col = .ok b ∧ g b col.type = .ok col' ∧ col'.type = col.type ∧
    col'.values = col.values

/-- **A list of columns comes back** exactly when every column does. -/
theorem mapM_returns_iff {γ : Type} {f : Column → Except Fault γ}
    {g : γ → ColumnType → Except Fault Column} (columns : List Column) :
    (∃ packed columns', columns.mapM f = .ok packed ∧
      ((packed.zip (columns.map Column.type)).mapM fun p => g p.1 p.2) = .ok columns' ∧
      columns'.map Column.type = columns.map Column.type ∧
      columns'.map Column.values = columns.map Column.values) ↔
      ∀ col ∈ columns, Returns f g col := by
  induction columns with
  | nil => exact ⟨fun _ => List.forall_mem_nil _, fun _ => ⟨[], [], rfl, rfl, rfl, rfl⟩⟩
  | cons col columns ih =>
      rw [List.forall_mem_cons, ← ih]
      constructor
      · rintro ⟨packed, columns', hpack, hunpack, htypes, hvalues⟩
        rw [List.mapM_cons] at hpack
        obtain ⟨b, hb, hpack⟩ := bind_ok.mp hpack
        obtain ⟨bs, hbs, hpack⟩ := bind_ok.mp hpack
        obtain rfl := Except.ok.inj hpack
        rw [List.map_cons, List.zip_cons_cons, List.mapM_cons] at hunpack
        obtain ⟨col', hcol', hunpack⟩ := bind_ok.mp hunpack
        obtain ⟨cols', hcols', hunpack⟩ := bind_ok.mp hunpack
        obtain rfl := Except.ok.inj hunpack
        obtain ⟨htype, htypes⟩ := List.cons.inj htypes
        obtain ⟨hvalue, hvalues⟩ := List.cons.inj hvalues
        exact ⟨⟨b, col', hb, hcol', htype, hvalue⟩, bs, cols', hbs, hcols', htypes, hvalues⟩
      · rintro ⟨⟨b, col', hb, hcol', htype, hvalue⟩, bs, cols', hbs, hcols', htypes, hvalues⟩
        refine ⟨b :: bs, col' :: cols', ?_, ?_, ?_, ?_⟩
        · rw [List.mapM_cons, hb, hbs]
          rfl
        · rw [List.map_cons, List.zip_cons_cons, List.mapM_cons, hcol', hcols']
          rfl
        · rw [List.map_cons, List.map_cons, htype, htypes]
        · rw [List.map_cons, List.map_cons, hvalue, hvalues]

theorem values_numeric_eq_iff {t : ColType} {cells cells' : List (Tables.Cell t)} :
    (Column.numeric t cells').values = (Column.numeric t cells).values ↔ cells' = cells := by
  refine ⟨fun h => ?_, fun h => by rw [h]⟩
  exact List.map_injective_iff.mpr (fun x y hxy => by cases hxy; rfl) h

/-- **A column in a list** comes back when it can be copied. -/
theorem returns_iff_copyable (col : Column) : Returns packColumn unpackColumn col ↔ Copyable col := by
  cases col with
  | numeric t cells =>
      have hcopyable : Copyable (.numeric t cells) ↔ ∀ x ∈ cells, x.Exact :=
        ⟨fun h => h.2, fun h => ⟨by simp [Column.type], h⟩⟩
      rw [hcopyable, ← map_copy_eq_iff]
      constructor
      · rintro ⟨b, col', hb, hcol', -, hvalues⟩
        obtain rfl := Except.ok.inj hb
        obtain rfl := Except.ok.inj hcol'
        exact values_numeric_eq_iff.mp hvalues
      · intro h
        exact ⟨_, _, rfl, rfl, rfl, values_numeric_eq_iff.mpr h⟩
  | string sc =>
      have hcopyable : Copyable (.string sc) := ⟨by simp [Column.type], trivial⟩
      refine iff_of_true ⟨_, _, rfl, rfl, rfl, ?_⟩ hcopyable
      simp [Column.values]
  | intcol ic =>
      refine iff_of_false ?_ fun h => h.1 rfl
      rintro ⟨b, col', hb, -⟩
      cases hb

/-! ## The list of columns -/

/-- A new table with some columns. -/
theorem foldlM_addColumn {names : List CString} {types : List ColumnType} (dt : DataTable)
    (hrows : dt.numRows = 0) (hlength : names.length = types.length)
    (hnodup : (dt.colNames ++ names).Nodup) :
    (names.zip types).foldlM (fun dt p => dt.addColumn p.1 p.2) dt =
      .ok { dt with
        colNames := dt.colNames ++ names
        columns := dt.columns ++ types.map Column.new } := by
  induction names generalizing types dt with
  | nil =>
      obtain rfl := List.length_eq_zero_iff.mp hlength.symm
      simp only [List.zip_nil_left, List.foldlM_nil, List.append_nil, List.map_nil]
      rfl
  | cons name names ih =>
      obtain ⟨type, types, rfl⟩ := List.exists_cons_of_length_eq_add_one hlength.symm
      have hname : name ∉ dt.colNames := by
        intro hmem
        exact List.disjoint_of_nodup_append hnodup hmem List.mem_cons_self
      have hadd : dt.addColumn name type = .ok { dt with
          colNames := dt.colNames ++ [name]
          columns := dt.columns ++ [.new type] } := by
        rw [DataTable.addColumn, if_neg (by omega), if_neg hname]
      rw [List.zip_cons_cons, List.foldlM_cons, hadd]
      have hrest := ih { dt with
          colNames := dt.colNames ++ [name]
          columns := dt.columns ++ [.new type] } hrows (Nat.succ.inj hlength) (by simpa using hnodup)
      simpa [Bind.bind, Except.bind] using hrest

/-- The list of columns brings back a table without rows. -/
theorem plainSurvives_empty (t : Table) (hrows : t.numRows = 0) : PlainSurvives t.toDataTable := by
  have hlength : t.colNames.length = t.colTypes.length := by
    rw [DataTable.colTypes, List.length_map]
    exact t.sound.named
  have hfold := foldlM_addColumn DataTable.new rfl hlength t.sound.distinct
  refine ⟨⟨t.colNames, t.colTypes, t.numRows, t.colTypes.map fun _ => .strings []⟩,
    ⟨t.colNames, t.colTypes.map Column.new, 0⟩, by rw [packDatatable, if_pos hrows]; rfl, ?_,
    ⟨?_, ?_, ?_, ?_⟩⟩
  · rw [unpackDatatable, if_pos hrows]
    exact hfold
  · rfl
  · simp [DataTable.colTypes]
  · exact hrows.symm
  · -- no column has a value
    rw [List.map_map, DataTable.colTypes, List.map_map]
    refine List.map_congr_left fun col hcol => ?_
    rw [Function.comp_apply, Function.comp_apply, Tables.Column.values_new]
    exact (List.length_eq_zero_iff.mp ((t.sound.full col hcol).trans hrows)).symm

/-- **The list of columns** brings back the tables without rows, and those with columns that
can be copied. -/
theorem plainSurvives_iff (t : Table) : PlainSurvives t.toDataTable ↔
    t.numRows = 0 ∨ ∀ col ∈ t.columns, Copyable col := by
  by_cases hrows : t.numRows = 0
  · exact iff_of_true (plainSurvives_empty t hrows) (Or.inl hrows)
  · have hcolumns := mapM_returns_iff (f := packColumn) (g := unpackColumn) t.columns
    simp only [returns_iff_copyable] at hcolumns
    rw [or_iff_right hrows, ← hcolumns]
    constructor
    · rintro ⟨packed, dt', hpack, hunpack, hsame⟩
      rw [packDatatable, if_neg hrows] at hpack
      obtain ⟨bs, hbs, hpack⟩ := bind_ok.mp hpack
      obtain rfl := Except.ok.inj hpack
      rw [unpackDatatable, if_neg hrows] at hunpack
      obtain ⟨columns', hcolumns', hunpack⟩ := bind_ok.mp hunpack
      obtain rfl := Except.ok.inj hunpack
      exact ⟨bs, columns', hbs, hcolumns', hsame.types, hsame.values⟩
    · rintro ⟨bs, columns', hbs, hcolumns', htypes, hvalues⟩
      refine ⟨⟨t.colNames, t.colTypes, t.numRows, bs⟩, ⟨t.colNames, columns', t.numRows⟩, ?_, ?_,
        ⟨rfl, htypes, rfl, hvalues⟩⟩
      · rw [packDatatable, if_neg hrows, hbs]
        rfl
      · rw [unpackDatatable, if_neg hrows]
        exact bind_ok.mpr ⟨columns', hcolumns', rfl⟩

/-! ## Compressed columns -/

/-- An element of a table that is written row by row. -/
theorem getD_flatMap_range {f : ℕ → ℕ → UInt8} {m n i j : ℕ} (hj : j < m) (hi : i < n) :
    ((List.range m).flatMap fun j => (List.range n).map (f j)).getD (j * n + i) 0 = f j i := by
  have hlength : ∀ m, ((List.range m).flatMap fun j => (List.range n).map (f j)).length = m * n := by
    intro m
    simp
  induction m with
  | zero => exact absurd hj (Nat.not_lt_zero _)
  | succ m ih =>
      rw [List.range_succ, List.flatMap_append, List.flatMap_singleton]
      rcases Nat.lt_succ_iff_lt_or_eq.mp hj with hlt | rfl
      · have hbound : j * n + i < m * n :=
          calc j * n + i < j * n + n := Nat.add_lt_add_left hi _
            _ = (j + 1) * n := (Nat.succ_mul j n).symm
            _ ≤ m * n := Nat.mul_le_mul_right n hlt
        rw [List.getD_append _ _ _ _ (by rw [hlength]; exact hbound)]
        exact ih hlt
      · rw [List.getD_append_right _ _ _ _ (by rw [hlength]; omega), hlength, Nat.add_sub_cancel_left,
          List.getD_eq_getElem _ _ (by simpa using hi)]
        simp

/-- **The transposition is undone.** -/
theorem byteUntranspose_byteTranspose {src : List UInt8} {nelem width : ℕ}
    (hlength : src.length = nelem * width) :
    byteUntranspose (byteTranspose src nelem width) nelem width = src := by
  have hsame : (byteUntranspose (byteTranspose src nelem width) nelem width).length =
      nelem * width := by simp [byteUntranspose]
  refine List.ext_getElem (by rw [hsame, hlength]) fun p hp hp' => ?_
  have hwidth : 0 < width := by
    rcases Nat.eq_zero_or_pos width with rfl | hpos
    · rw [hlength, Nat.mul_zero] at hp'
      exact absurd hp' (Nat.not_lt_zero _)
    · exact hpos
  have hdiv : p / width < nelem := by
    rw [Nat.div_lt_iff_lt_mul hwidth, ← hlength]
    exact hp'
  have hmod : p % width < width := Nat.mod_lt _ hwidth
  have hplace : p / width * width + p % width = p := by
    rw [Nat.mul_comm]
    exact Nat.div_add_mod p width
  rw [← List.getD_eq_getElem _ 0 hp, ← List.getD_eq_getElem _ 0 hp']
  conv_lhs => rw [← hplace]
  rw [byteUntranspose, getD_flatMap_range hdiv hmod, byteTranspose, getD_flatMap_range hmod hdiv,
    hplace]

theorem newMatrix_of_ne {n : ℕ} (hn : n ≠ 0) : newMatrix n = .ok () := if_neg hn

theorem newMatrix_zero : newMatrix 0 = .error (.error "Cannot compute storage size") := if_pos rfl

/-- What `bwrite` has written is read again. -/
theorem Codec.Lossless.breads (hc : c.Lossless) (v : Blob) :
    ∃ bytes, c.bwriteToBytes v = .ok bytes ∧ c.breadFromBytes bytes = .ok v := by
  obtain ⟨bytes, hbytes⟩ := hc.writes v
  refine ⟨payloadArray bytes, by rw [Codec.bwriteToBytes, hbytes], ?_⟩
  rw [Codec.breadFromBytes, hc.faithful v bytes hbytes]

/-- A column of integers, compressed. -/
theorem Codec.Lossless.compresses (hc : c.Lossless) {nrows : ℕ} (hrows : nrows ≠ 0)
    {cells : List (Tables.Cell .int)} (hlength : cells.length = nrows) :
    ∃ cd, packCompressedColumn c nrows (.numeric .int cells) = .ok cd ∧
      unpackCompressedColumn c nrows cd (.numeric .int) = .ok (.numeric .int cells) := by
  have hcopy : cells.map Datatable.Cell.copy = cells :=
    (map_copy_eq_iff cells).mpr fun x _ => Datatable.Cell.exact_int x
  have hraw : (Words.write cells).length = nrows * 4 :=
    (Words.length_write cells).trans (by rw [hlength]; exact Nat.mul_comm _ _)
  obtain ⟨transposed, htransposed⟩ : ∃ l, l = byteTranspose (Words.write cells) nrows 4 := ⟨_, rfl⟩
  have hsize : transposed.length = nrows * 4 := by
    rw [htransposed, byteTranspose, List.length_flatMap]
    simp
    omega
  have hne : transposed ≠ [] := List.ne_nil_of_length_pos (by omega)
  obtain ⟨hcbuf, hdecompress⟩ := hc.compress transposed hne
  have hclen : (c.lz4Compress transposed).length ≠ 0 :=
    fun h => hcbuf (List.length_eq_zero_iff.mp h)
  rw [hsize] at hdecompress
  refine ⟨.compressed (c.lz4Compress transposed).length (nrows * 4) (c.lz4Compress transposed),
    ?_, ?_⟩
  · simp only [packCompressedColumn, newMatrix_of_ne hrows, hcopy, ← htransposed,
      newMatrix_of_ne hclen, Bind.bind, Except.bind]
  · have hread : Words.read ColType.int.size nrows (byteUntranspose transposed nrows 4) = cells := by
      rw [htransposed, byteUntranspose_byteTranspose hraw, ← hlength]
      exact Words.read_write cells
    have hbytes : nrows * 4 ≠ 0 := by omega
    simp only [unpackCompressedColumn, newMatrix_of_ne hbytes, hdecompress, newMatrix_of_ne hrows,
      hread, Bind.bind, Except.bind, if_true]

/-- **A compressed column** comes back when it can be copied, unless there are no rows for a
matrix. -/
theorem returns_compressed_iff (hc : c.Lossless) {nrows : ℕ} (hlength : col.values.length = nrows) :
    Returns (packCompressedColumn c nrows) (unpackCompressedColumn c nrows) col ↔
      Copyable col ∧ (nrows = 0 → col.type = .string) := by
  cases col with
  | numeric t cells =>
      have hne : (Column.numeric t cells).type ≠ .string := by simp [Column.type]
      by_cases hrows : nrows = 0
      · -- there is no matrix for the cells
        refine iff_of_false ?_ fun h => hne (h.2 hrows)
        rintro ⟨b, col', hb, -⟩
        cases t <;> rw [packCompressedColumn, hrows, newMatrix_zero] at hb <;> cases hb
      · rw [and_iff_left fun h => absurd h hrows, ← returns_iff_copyable]
        have hlength' : cells.length = nrows := by simpa [Column.values] using hlength
        cases t with
        | int =>
            obtain ⟨cd, hpack, hunpack⟩ := hc.compresses hrows hlength'
            refine iff_of_true ⟨cd, _, hpack, hunpack, rfl, rfl⟩ ?_
            exact (returns_iff_copyable _).mpr ⟨by simp [Column.type], fun x _ =>
              Datatable.Cell.exact_int x⟩
        | stamp =>
            obtain ⟨bytes, hwrite, hread⟩ := hc.breads (.matrix .stamp (cells.map Datatable.Cell.copy))
            have hpack : packCompressedColumn c nrows (.numeric .stamp cells) =
                .ok (.bwrite bytes) := by
              simp only [packCompressedColumn, newMatrix_of_ne hrows, hwrite, Bind.bind, Except.bind]
            have hunpack : unpackCompressedColumn c nrows (.bwrite bytes) (.numeric .stamp) =
                .ok (.numeric .stamp (cells.map Datatable.Cell.copy)) := by
              simp only [unpackCompressedColumn, hread, Bind.bind, Except.bind, unpackColumn]
            constructor
            · rintro ⟨b, col', hb, hcol', htype, hvalues⟩
              obtain rfl := Except.ok.inj (hpack.symm.trans hb)
              obtain rfl := Except.ok.inj (hunpack.symm.trans hcol')
              exact ⟨_, _, rfl, rfl, htype, hvalues⟩
            · rintro ⟨b, col', hb, hcol', htype, hvalues⟩
              obtain rfl := Except.ok.inj hb
              obtain rfl := Except.ok.inj hcol'
              exact ⟨_, _, hpack, hunpack, htype, hvalues⟩
  | string sc =>
      obtain ⟨bytes, hwrite, hread⟩ := hc.breads (.strings sc.rows)
      refine iff_of_true ⟨.bwrite bytes, .string (.ofRows sc.rows), ?_, ?_, rfl, ?_⟩
        ⟨⟨by simp [Column.type], trivial⟩, fun _ => rfl⟩
      · simp only [packCompressedColumn, hwrite, Bind.bind, Except.bind]
      · simp only [unpackCompressedColumn, hread, Bind.bind, Except.bind, Column.type, unpackColumn]
      · simp [Column.values]
  | intcol ic =>
      refine iff_of_false ?_ fun h => h.1.1 rfl
      rintro ⟨b, col', hb, -⟩
      cases hb

/-- **Compressed columns** bring back the tables with columns that can be copied, and with rows
unless there are only strings. -/
theorem compressedSurvives_iff (hc : c.Lossless) (t : Table) : CompressedSurvives c t.toDataTable ↔
    ∀ col ∈ t.columns, Copyable col ∧ (t.numRows = 0 → col.type = .string) := by
  have hcolumns := mapM_returns_iff (f := packCompressedColumn c t.numRows)
    (g := unpackCompressedColumn c t.numRows) t.columns
  have hcolumn : ∀ col ∈ t.columns,
      (Returns (packCompressedColumn c t.numRows) (unpackCompressedColumn c t.numRows) col ↔
        Copyable col ∧ (t.numRows = 0 → col.type = .string)) :=
    fun col hcol => returns_compressed_iff hc (t.sound.full col hcol)
  rw [← forall₂_congr hcolumn, ← hcolumns]
  constructor
  · rintro ⟨packed, dt', hpack, hunpack, hsame⟩
    obtain ⟨bs, hbs, hpack⟩ := bind_ok.mp hpack
    obtain rfl := Except.ok.inj hpack
    obtain ⟨columns', hcolumns', hunpack⟩ := bind_ok.mp hunpack
    obtain rfl := Except.ok.inj hunpack
    exact ⟨bs, columns', hbs, hcolumns', hsame.types, hsame.values⟩
  · rintro ⟨bs, columns', hbs, hcolumns', htypes, hvalues⟩
    exact ⟨⟨t.colNames, t.colTypes, t.numRows, bs⟩, ⟨t.colNames, columns', t.numRows⟩,
      bind_ok.mpr ⟨bs, hbs, rfl⟩, bind_ok.mpr ⟨columns', hcolumns', rfl⟩,
      ⟨rfl, htypes, rfl, hvalues⟩⟩

/-! ## Expressions -/

/-- The text of a value. -/
def valueText : Value → List UInt8
  | .cell _ x => strNumber (ofInt x.number)
  | .string s => quoted s.bytes

/-- The value is read back. -/
def Value.Reads : Value → Prop
  | .cell _ _ => True
  | .string s => Text.Quotable s.bytes

variable {caseSensitive : Bool}

theorem judged_value {v : Value} (h : ∀ t x, v = .cell t x → t = .int) :
    Judged caseSensitive (Value.Reads v) (valueText v) (valueTree v) := by
  cases v with
  | string s => exact judged_quoted s.bytes
  | cell t x =>
      obtain rfl := h t x rfl
      refine judged_of_readsBack ?_
      have hlt : x.toInt < 2 ^ 31 := BitVec.toInt_lt
      have hle : -2 ^ 31 ≤ x.toInt := BitVec.le_toInt x
      rw [valueText, valueTree, show x.number = x.toInt from Datatable.Cell.exact_int x]
      exact readsBack_number (by omega)

/-- A column of integers or of strings has its own text. -/
theorem columnText_packColumn (htype : col.type = .numeric .int ∨ col.type = .string) :
    ∃ b, packColumn col = .ok b ∧
      columnText b col.type = parens (col.values.map valueText) := by
  cases col with
  | numeric t cells =>
      obtain rfl : t = .int := by simpa [Column.type] using htype
      have hcopy : cells.map Datatable.Cell.copy = cells :=
        (map_copy_eq_iff cells).mpr fun x _ => Datatable.Cell.exact_int x
      refine ⟨_, rfl, ?_⟩
      simp only [hcopy, columnText, Column.type, Column.values, List.map_map]
      rfl
  | string sc =>
      refine ⟨_, rfl, ?_⟩
      simp only [columnText, Column.type, Column.values, List.map_map]
      rfl
  | intcol ic => simp [Column.type] at htype

theorem mapM_packColumn {columns : List Column}
    (h : ∀ col ∈ columns, col.type = .numeric .int ∨ col.type = .string) :
    ∃ bs, columns.mapM packColumn = .ok bs ∧
      ((bs.zip (columns.map Column.type)).map fun p => columnText p.1 p.2) =
        columns.map fun col => parens (col.values.map valueText) := by
  induction columns with
  | nil => exact ⟨[], rfl, rfl⟩
  | cons col columns ih =>
      obtain ⟨hcol, hcolumns⟩ := List.forall_mem_cons.mp h
      obtain ⟨b, hb, htext⟩ := columnText_packColumn hcol
      obtain ⟨bs, hbs, htexts⟩ := ih hcolumns
      refine ⟨b :: bs, ?_, ?_⟩
      · rw [List.mapM_cons, hb, hbs]
        rfl
      · rw [List.map_cons, List.zip_cons_cons, List.map_cons, htext, htexts, List.map_cons]

/-- The text of a table of integers and strings. -/
def sexpText (dt : DataTable) : List UInt8 :=
  parens [
    parens [namesName, parens (dt.colNames.map fun n => quoted n.bytes)],
    parens [typesName, parens (dt.colTypes.map typeName)],
    parens [nrowsName, strNumber (ofInt dt.numRows)],
    parens [dataName, parens (dt.columns.map fun col => parens (col.values.map valueText))]]

theorem datatableToSexp_ok (t : Table) (hplain : t.Plain) :
    datatableToSexp t.toDataTable = .ok (sexpText t.toDataTable) := by
  by_cases hrows : t.numRows = 0
  · have hcolumn : ∀ col ∈ t.columns,
        columnText (.strings []) col.type = parens (col.values.map valueText) := by
      intro col hcol
      rw [List.length_eq_zero_iff.mp ((t.sound.full col hcol).trans hrows)]
      rcases hplain col hcol with htype | htype <;> rw [htype] <;> rfl
    have htexts : (((t.colTypes.map fun _ => Blob.strings []).zip t.colTypes).map fun p =>
        columnText p.1 p.2) = t.columns.map fun col => parens (col.values.map valueText) := by
      rw [DataTable.colTypes, List.map_map, List.zip_map', List.map_map]
      exact List.map_congr_left hcolumn
    rw [datatableToSexp, packDatatable, if_pos hrows]
    simp only [Bind.bind, Except.bind, htexts, sexpText]
  · obtain ⟨bs, hbs, htexts⟩ := mapM_packColumn hplain
    rw [datatableToSexp, packDatatable, if_neg hrows, hbs]
    simp only [Bind.bind, Except.bind, DataTable.colTypes, htexts, sexpText]

/-- A list with a symbol and another element. -/
theorem judged_entry {name text : List UInt8} {tree : Tree} {good : Prop}
    (hname : ReadsBack caseSensitive name (.symbol name))
    (h : Judged caseSensitive good text tree) :
    Judged caseSensitive good (parens [name, text]) (.list [.symbol name, tree]) := by
  have hentry := judged_parens
    (show ∀ x ∈ [(⟨True, name, .symbol name⟩ : Item), ⟨good, text, tree⟩],
      Judged caseSensitive x.good x.text x.tree by
        simpa using ⟨judged_of_readsBack hname, h⟩)
  exact hentry.congr (by simp)

/-- The symbols of the text are read back. -/
theorem readsBack_name {name : List UInt8} (hbars : needsBars initCharMap name = false)
    (hfree : reservedName name = false) (hprint : ∀ c ∈ name, isPrint c = true)
    (hbar : ascii '|' ∉ name) (hdot : name ≠ [ascii '.']) (hlength : name.length ≤ lineBuffer) :
    ReadsBack caseSensitive name (.symbol name) := by
  have hreads := readsBack_symbol caseSensitive hfree hprint hbar hdot hlength
  rwa [symbolText, hbars, if_neg Bool.false_ne_true] at hreads

theorem readsBack_names (caseSensitive : Bool) :
    ReadsBack caseSensitive namesName (.symbol namesName) ∧
    ReadsBack caseSensitive typesName (.symbol typesName) ∧
    ReadsBack caseSensitive nrowsName (.symbol nrowsName) ∧
    ReadsBack caseSensitive dataName (.symbol dataName) := by
  refine ⟨?_, ?_, ?_, ?_⟩ <;>
    exact readsBack_name (by decide +kernel) (by decide +kernel) (by decide +kernel)
      (by decide +kernel) (by decide +kernel) (by decide +kernel)

theorem readsBack_typeName (type : ColumnType) :
    ReadsBack caseSensitive (typeName type) (.symbol (typeName type)) := by
  rcases type with (_ | _) | _ | _ <;>
    exact readsBack_name (by decide +kernel) (by decide +kernel) (by decide +kernel)
      (by decide +kernel) (by decide +kernel) (by decide +kernel)

theorem type_of_cell {t : ColType} {x : Tables.Cell t}
    (htype : col.type = .numeric .int ∨ col.type = .string) (hmem : .cell t x ∈ col.values) :
    t = .int := by
  cases col with
  | numeric t' cells =>
      obtain ⟨y, -, heq⟩ := List.mem_map.mp hmem
      cases heq
      simpa [Column.type] using htype
  | string sc =>
      obtain ⟨y, -, heq⟩ := List.mem_map.mp hmem
      cases heq
  | intcol ic => simp [Column.type] at htype

/-- The text of a column. -/
theorem judged_column (htype : col.type = .numeric .int ∨ col.type = .string) :
    Judged caseSensitive (∀ v ∈ col.values, Value.Reads v) (parens (col.values.map valueText))
      (.list (col.values.map valueTree)) := by
  refine judged_map fun v hv => judged_value fun t x heq => ?_
  rw [heq] at hv
  exact type_of_cell htype hv

theorem judged_sexpText (t : Table) (hplain : t.Plain) (caseSensitive : Bool) :
    Judged caseSensitive ((∀ n ∈ t.colNames, Text.Quotable n.bytes) ∧
      ∀ col ∈ t.columns, ∀ v ∈ col.values, Value.Reads v)
      (sexpText t.toDataTable) (sexpTree t.toDataTable) := by
  obtain ⟨hnames, htypes, hnrows, hdata⟩ := readsBack_names caseSensitive
  have hsmall : (t.numRows : ℤ).natAbs ≤ 10 ^ 10 := by
    have := t.sound.small
    omega
  have names := judged_entry hnames
    (judged_map fun n (_ : n ∈ t.colNames) => judged_quoted n.bytes)
  have types := judged_entry htypes
    (judged_map fun type (_ : type ∈ t.colTypes) => judged_of_readsBack (readsBack_typeName type))
  have nrows := judged_entry hnrows (judged_of_readsBack (readsBack_number hsmall))
  have data := judged_entry hdata
    (judged_map fun col (hcol : col ∈ t.columns) => judged_column (hplain col hcol))
  have hall := judged_parens (show ∀ x ∈ [names.item, types.item, nrows.item, data.item],
    Judged caseSensitive x.good x.text x.tree from List.forall_mem_cons.mpr ⟨names,
      List.forall_mem_cons.mpr ⟨types, List.forall_mem_cons.mpr ⟨nrows,
        List.forall_mem_cons.mpr ⟨data, List.forall_mem_nil _⟩⟩⟩⟩)
  exact hall.congr (by simp [Judged.item])

/-- **The text of a table** is read as its expression when names and strings can be written
between quotes. -/
theorem sexpReads_iff (t : Table) (hplain : t.Plain) (caseSensitive : Bool) :
    SexpReads caseSensitive t.toDataTable ↔ t.Quotable := by
  have hread := (judged_sexpText t hplain caseSensitive).readSexp_iff (begins_parens _)
  have hstrings : (∀ col ∈ t.columns, ∀ v ∈ col.values, Value.Reads v) ↔
      ∀ col ∈ t.columns, ∀ s, .string s ∈ col.values → Text.Quotable s.bytes := by
    refine forall₂_congr fun col _ => ⟨fun h s hs => h _ hs, fun h v hv => ?_⟩
    cases v with
    | cell ty x => trivial
    | string s => exact h s hv
  rw [hstrings] at hread
  constructor
  · rintro ⟨text, htext, hok⟩
    obtain rfl := Except.ok.inj ((datatableToSexp_ok t hplain).symm.trans htext)
    obtain ⟨hnames, hvalues⟩ := hread.mp hok
    exact ⟨hnames, hvalues⟩
  · intro h
    exact ⟨_, datatableToSexp_ok t hplain, hread.mpr ⟨h.names, h.strings⟩⟩

/-! ## The result -/

/-- **A table survives exactly when it is portable.** -/
theorem survives_iff (hc : c.Lossless) (t : Table) (caseSensitive : Bool) :
    Survives c caseSensitive t.toDataTable ↔ t.Portable := by
  constructor
  · intro h
    have hcolumns := (compressedSurvives_iff hc t).mp h.compressed
    exact ⟨fun col hcol => (hcolumns col hcol).1, fun hrows col hcol => (hcolumns col hcol).2 hrows,
      fun hplain => (sexpReads_iff t hplain caseSensitive).mp (h.sexp hplain)⟩
  · intro h
    refine ⟨(plainSurvives_iff t).mpr (Or.inr h.copyable), ?_, fun hplain => ?_⟩
    · exact (compressedSurvives_iff hc t).mpr fun col hcol =>
        ⟨h.copyable col hcol, fun hrows => h.rows hrows col hcol⟩
    · exact (sexpReads_iff t hplain caseSensitive).mpr (h.quotable hplain)

/-! ## Examples -/

/-- The length of a block without matches, as LZ4 writes it. -/
def literalHeader (n : ℕ) : List UInt8 :=
  if n < 15 then [UInt8.ofNat (16 * n)]
  else 240 :: (List.replicate ((n - 15) / 255) 255 ++ [UInt8.ofNat ((n - 15) % 255)])

/-- Blocks without matches, and objects as a tag with the words of a matrix, or with the strings
of a list one after the other. -/
def literalCodec : Codec Blob where
  bwrite
    | .matrix .int cells => some (0 :: Words.write cells)
    | .matrix .stamp cells => some (1 :: Words.write cells)
    | .strings rows => some (2 :: rows.flatMap fun s => s.bytes ++ [0])
  bread
    | [] => none
    | tag :: bytes =>
        if tag = 0 then some (.matrix .int (Words.read ColType.int.size (bytes.length / 4) bytes))
        else if tag = 1 then
          some (.matrix .stamp (Words.read ColType.stamp.size (bytes.length / 8) bytes))
        else some (.strings ((bytes.splitOn 0).dropLast.map cstring))
  print _ := cstring []
  lz4Compress bytes := literalHeader bytes.length ++ bytes
  lz4Decompress cbuf n := some (cbuf.drop (cbuf.length - n))

theorem splitOn_strings (rows : List CString) :
    ((rows.flatMap fun s => s.bytes ++ [0]).splitOn 0).dropLast.map cstring = rows := by
  induction rows with
  | nil => simp
  | cons s rows ih =>
      have hsplit : ((s :: rows).flatMap fun s => s.bytes ++ [0]).splitOn 0 =
          s.bytes :: (rows.flatMap fun s => s.bytes ++ [0]).splitOn 0 := by
        rw [List.flatMap_cons, List.append_assoc, List.singleton_append,
          List.splitOn_append_cons_self_of_not_mem s.nonzero]
      rw [hsplit, List.dropLast_cons_of_ne_nil (List.splitOn_ne_nil _ _), List.map_cons, ih,
        cstring_bytes]

theorem literalCodec_lossless : literalCodec.Lossless where
  writes v := by
    rcases v with ⟨_ | _, cells⟩ | rows
    exacts [⟨_, rfl⟩, ⟨_, rfl⟩, ⟨_, rfl⟩]
  faithful v bytes hwrite := by
    rcases v with ⟨_ | _, cells⟩ | rows
    · obtain rfl := Option.some.inj hwrite
      have hlength : (Words.write cells).length / 4 = cells.length := by
        rw [Words.length_write]
        exact Nat.mul_div_cancel_left _ (by decide)
      refine congrArg (fun cells => some (Blob.matrix .int cells)) ?_
      rw [hlength]
      exact Words.read_write cells
    · obtain rfl := Option.some.inj hwrite
      have hlength : (Words.write cells).length / 8 = cells.length := by
        rw [Words.length_write]
        exact Nat.mul_div_cancel_left _ (by decide)
      refine congrArg (fun cells => some (Blob.matrix .stamp cells)) ?_
      rw [hlength]
      exact Words.read_write cells
    · obtain rfl := Option.some.inj hwrite
      exact congrArg (fun rows => some (Blob.strings rows)) (splitOn_strings rows)
  compress bytes hne := by
    refine ⟨fun hnil => hne (List.append_eq_nil_iff.mp hnil).2, ?_⟩
    simp [literalCodec]

/-- One column of integers, with one row. -/
def oneRow : Table where
  colNames := [cstring [110]]
  columns := [.numeric .int [7]]
  numRows := 1
  sound := ⟨rfl, by simp, by simp [Column.values], by norm_num⟩

/-- One column of integers, without rows. -/
def noRows : Table where
  colNames := [cstring [110]]
  columns := [.numeric .int []]
  numRows := 0
  sound := ⟨rfl, by simp, by simp [Column.values], by norm_num⟩

theorem survives_oneRow : Survives literalCodec false oneRow.toDataTable := by
  have hlength : (cstring [110]).bytes = [110] := by decide
  refine (survives_iff literalCodec_lossless oneRow false).mpr ⟨?_, ?_, fun _ => ⟨?_, ?_⟩⟩
  · intro col hcol
    obtain rfl := List.mem_singleton.mp hcol
    exact ⟨by simp [Column.type], fun x _ => Datatable.Cell.exact_int x⟩
  · intro hrows
    exact absurd hrows (by decide)
  · intro name hname
    obtain rfl := List.mem_singleton.mp hname
    rw [hlength]
    have hbuffer : stringBuffer = 4096 := rfl
    refine ⟨fun c hc => ?_, by rw [hbuffer]; simp⟩
    obtain rfl := List.mem_singleton.mp hc
    decide
  · intro col hcol s hs
    obtain rfl := List.mem_singleton.mp hcol
    simp [Column.values] at hs

/-- A table without rows is not compressed. -/
theorem not_survives_noRows : ¬Survives literalCodec false noRows.toDataTable := by
  intro h
  have hcolumns := (compressedSurvives_iff literalCodec_lossless noRows).mp h.compressed
  have htype : (Column.numeric .int []).type = .string :=
    (hcolumns _ (List.mem_singleton_self _)).2 rfl
  cases htype

end Lush.Wire
