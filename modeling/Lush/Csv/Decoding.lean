import Lush.Csv.Encoding
import Lush.Csv.ReadAll

/-!
# The strings that `csv-read` returns

Every column of strings has a share of its own, and the cells of its codes are its own,
so a field changes nothing in the other columns (`Inv.putField`).  What is read in the
end is, for every column, the encoding of the fields that were split from the lines.  It
is faithful if and only if the columns have room for their strings, no string has a zero
byte, and the indices are in the range of an `int` (`readAll_faithful_iff`).
-/

namespace Lush.Csv

variable {ν τ : Type} {P : Parsers ν τ} {delim : UInt8} {types : List ColType}
  {nrows row c oi n r : ℕ} {column : ColType × ℕ} {out : Output ν τ} {text t : Text}

/-! ## Columns -/

theorem getElem?_columnsFrom (n : Group → ℕ) (types : List ColType) (c : ℕ) :
    (columnsFrom n types)[c]? = types[c]?.map fun ct =>
      (ct, n ct.group + columnCount (types.take c) ct.group) := by
  induction types generalizing n c with
  | nil => simp [columnsFrom]
  | cons ct types ih =>
      rw [columnsFrom]
      cases c with
      | zero => simp [columnCount]
      | succ c =>
          rw [List.getElem?_cons_succ, List.getElem?_cons_succ, ih]
          congr 1
          funext ct'
          rw [List.take_succ_cons, columnCount, columnCount, List.countP_cons]
          by_cases hg : ct'.group = ct.group
          · rw [hg, Function.update_self]
            simp only [decide_true, if_true]
            congr 1
            omega
          · rw [Function.update_of_ne hg]
            have hne : ¬ct.group = ct'.group := fun h => hg h.symm
            simp [hne]

/-- The index of a column is the number of columns of its array that are before it. -/
theorem columns_eq_some_iff : (columns types)[c]? = some column ↔
    types[c]? = some column.1 ∧ column.2 = columnCount (types.take c) column.1.group := by
  rw [columns, getElem?_columnsFrom, Option.map_eq_some_iff]
  constructor
  · rintro ⟨ct, hct, rfl⟩
    exact ⟨hct, Nat.zero_add _⟩
  · rintro ⟨hct, hindex⟩
    refine ⟨column.1, hct, ?_⟩
    rw [Nat.zero_add, ← hindex]

theorem columnCount_take_lt {ct : ColType} (hc : types[c]? = some ct) {k : ℕ} (hk : c < k) :
    columnCount (types.take c) ct.group < columnCount (types.take k) ct.group := by
  have hle : columnCount (types.take (c + 1)) ct.group ≤ columnCount (types.take k) ct.group :=
    List.Sublist.countP_le (List.take_sublist_take_left hk)
  refine lt_of_lt_of_le ?_ hle
  obtain ⟨hlt, rfl⟩ := List.getElem?_eq_some_iff.mp hc
  rw [columnCount, columnCount, List.take_add_one, List.getElem?_eq_getElem hlt,
    List.countP_append]
  simp

theorem index_lt (hc : (columns types)[c]? = some column) :
    column.2 < columnCount types column.1.group := by
  obtain ⟨hct, hindex⟩ := columns_eq_some_iff.mp hc
  have hlt := (List.getElem?_eq_some_iff.mp hct).1
  have := columnCount_take_lt hct hlt
  rwa [List.take_length, ← hindex] at this

/-- Two columns of an array have different indices. -/
theorem index_injective {c' : ℕ} {column' : ColType × ℕ} (hc : (columns types)[c]? = some column)
    (hc' : (columns types)[c']? = some column') (hgroup : column.1.group = column'.1.group)
    (hindex : column.2 = column'.2) : c = c' := by
  obtain ⟨hct, hi⟩ := columns_eq_some_iff.mp hc
  obtain ⟨hct', hi'⟩ := columns_eq_some_iff.mp hc'
  rcases Nat.lt_trichotomy c c' with hlt | heq | hlt
  · have := columnCount_take_lt hct hlt
    rw [hgroup, ← hi', hgroup.symm, ← hi] at this
    omega
  · exact heq
  · have := columnCount_take_lt hct' hlt
    rw [← hi', ← hgroup, ← hi] at this
    omega

theorem cell_injective {r' oi' : ℕ} (h : oi < n) (h' : oi' < n) (heq : r * n + oi = r' * n + oi') :
    r = r' ∧ oi = oi' := by
  have hn : 0 < n := Nat.zero_lt_of_lt h
  have hdiv : ∀ r oi : ℕ, oi < n → (r * n + oi) / n = r := fun r oi hoi => by
    rw [Nat.add_comm, Nat.add_mul_div_right _ _ hn, Nat.div_eq_of_lt hoi, Nat.zero_add]
  have hr : r = r' := by rw [← hdiv r oi h, heq, hdiv r' oi' h']
  subst hr
  exact ⟨rfl, Nat.add_left_cancel heq⟩

theorem cell_lt (hrow : row < nrows) (hoi : oi < n) : row * n + oi < nrows * n := by
  calc row * n + oi < row * n + n := Nat.add_lt_add_left hoi _
    _ = (row + 1) * n := (Nat.succ_mul row n).symm
    _ ≤ nrows * n := Nat.mul_le_mul_right n hrow

theorem storeCell_eq {α : Type} {a : List α} (ha : nrows * n ≤ a.length) (hrow : row < nrows)
    (hoi : oi < n) (v : α) :
    storeCell a row n oi v = if row * n + oi ≤ 2147483647 then .ok (a.set (row * n + oi) v)
      else .error .undefined := by
  have hlt := (cell_lt hrow hoi).trans_le ha
  rw [storeCell, nonnegInt]
  split_ifs
  · rw [ok_bind, storeAt, if_pos hlt]
  · rfl

/-! ## What the arrays hold -/

/-- The column has interned these texts, and their codes are stored. -/
def ColumnHolds (types : List ColType) (oi : ℕ) (texts : List Text) (out : Output ν τ) : Prop :=
  ∃ ctx, out.strCtxs[oi]? = some ctx ∧
    Represents strMaxUniqueEach strBufSizeEach ctx
      (encode strMaxUniqueEach strBufSizeEach texts).1 ∧
    ∀ (r : ℕ) (code : Option ℕ),
      (encode strMaxUniqueEach strBufSizeEach texts).2[r]? = some code →
        out.strCodes[r * columnCount types .str + oi]? = some (code.getD 0)

/-- The arrays have the sizes that `csv-read` gives them, and the columns hold the texts
that were read so far. -/
structure Inv (types : List ColType) (nrows : ℕ) (done : ℕ → List Text) (out : Output ν τ) :
    Prop where
  num : nrows * columnCount types .num ≤ out.numData.length
  codes : nrows * columnCount types .str ≤ out.strCodes.length
  stamps : nrows * columnCount types .stamp ≤ out.stampData.length
  shares : ∀ ctx ∈ out.strCtxs, ctx.uniqueBuf.length = strBufSizeEach ∧
    ctx.uniqueOffsets.length = strMaxUniqueEach
  cells : ∀ c column, (columns types)[c]? = some column → ∀ r < (done c).length,
    r * columnCount types column.1.group + column.2 ≤ 2147483647
  strings : ∀ c column, (columns types)[c]? = some column → column.1.group = .str →
    ColumnHolds types column.2 (done c) out

variable {done done' : ℕ → List Text}

theorem Inv.congr (h : Inv types nrows done out) (heq : ∀ c < types.length, done' c = done c) :
    Inv types nrows done' out := by
  have hlt : ∀ c column, (columns types)[c]? = some column → c < types.length :=
    fun c column hc => (List.getElem?_eq_some_iff.mp (columns_eq_some_iff.mp hc).1).1
  refine ⟨h.num, h.codes, h.stamps, h.shares, fun c column hc => ?_, fun c column hc hg => ?_⟩
  · rw [heq c (hlt c column hc)]
    exact h.cells c column hc
  · rw [heq c (hlt c column hc)]
    exact h.strings c column hc hg

/-- The cells of one column more are used. -/
theorem Inv.cells_update (h : Inv types nrows done out) (hc : (columns types)[c]? = some column)
    (hint : (done c).length * columnCount types column.1.group + column.2 ≤ 2147483647) :
    ∀ c' column', (columns types)[c']? = some column' →
      ∀ r < (Function.update done c (done c ++ [text]) c').length,
        r * columnCount types column'.1.group + column'.2 ≤ 2147483647 := by
  intro c' column' hc' r hr
  by_cases heq : c' = c
  · subst heq
    obtain rfl := Option.some.inj (hc.symm.trans hc')
    rw [Function.update_self, List.length_append, List.length_singleton] at hr
    rcases Nat.lt_succ_iff_lt_or_eq.mp hr with hlt | rfl
    · exact h.cells c' column hc r hlt
    · exact hint
  · rw [Function.update_of_ne heq] at hr
    exact h.cells c' column' hc' r hr

/-- A field of another array changes nothing in the columns of strings. -/
theorem Inv.strings_update (h : Inv types nrows done out)
    (hc : (columns types)[c]? = some column) (hgroup : column.1.group ≠ .str)
    {out' : Output ν τ} (hctxs : out'.strCtxs = out.strCtxs)
    (hcodes : out'.strCodes = out.strCodes) :
    ∀ c' column', (columns types)[c']? = some column' → column'.1.group = .str →
      ColumnHolds types column'.2 (Function.update done c (done c ++ [text]) c') out' := by
  intro c' column' hc' hgroup'
  have heq : c' ≠ c := by
    rintro rfl
    obtain rfl := Option.some.inj (hc.symm.trans hc')
    exact hgroup hgroup'
  rw [Function.update_of_ne heq, ColumnHolds, hctxs, hcodes]
  exact h.strings c' column' hc' hgroup'

/-- A string is the next one of its column, and the other columns keep theirs. -/
theorem Inv.putString (h : Inv types nrows done out) (hc : (columns types)[c]? = some column)
    (hgroup : column.1.group = .str) (hrow : (done c).length < nrows) (text : Text) :
    (∃ out', putString (columnCount types .str) (done c).length column.2 text out = .ok out' ∧
      Inv types nrows (Function.update done c (done c ++ [text])) out') ∨
    ((∃ fault, putString (columnCount types .str) (done c).length column.2 text out =
        .error fault) ∧
      (2147483648 < nrows * columnCount types .str ∨
        text ∉ (encode strMaxUniqueEach strBufSizeEach (done c)).1 ∧ 2147483647 <
          (layout ((encode strMaxUniqueEach strBufSizeEach (done c)).1 ++ [text])).length)) := by
  have hindex := index_lt hc
  rw [hgroup] at hindex
  obtain ⟨ctx, hctx, hrep, hcodes⟩ := h.strings c column hc hgroup
  rw [Csv.putString, hctx]
  simp only
  rcases hrep.intern text with ⟨ctx', hintern, hrep'⟩ | ⟨hfault, hnew, hlarge⟩
  · rw [hintern]
    simp only [ok_bind, storeCell_eq h.codes hrow hindex]
    split_ifs with hint
    · refine .inl ⟨_, rfl, h.num, by simpa using h.codes, h.stamps, ?_, ?_, ?_⟩
      · intro ctx1 hmem
        rcases List.mem_or_eq_of_mem_set hmem with hmem | rfl
        · exact h.shares ctx1 hmem
        · exact ⟨hrep'.share, hrep'.places⟩
      · refine h.cells_update hc ?_
        rwa [hgroup]
      · intro c' column' hc' hgroup'
        have hindex' := index_lt hc'
        rw [hgroup'] at hindex'
        by_cases heq : c' = c
        · subst heq
          obtain rfl := Option.some.inj (hc.symm.trans hc')
          have hlen : column.2 < out.strCtxs.length := (List.getElem?_eq_some_iff.mp hctx).1
          refine ⟨ctx', by simp [hlen], ?_, fun r code hcode => ?_⟩
          · rw [Function.update_self, encode_append]
            exact hrep'
          · rw [Function.update_self, encode_append] at hcode
            simp only [List.getElem?_set]
            rcases Nat.lt_or_ge r (done c').length with hlt | hge
            · rw [List.getElem?_append_left (by simpa using hlt)] at hcode
              have hne : ¬(done c').length * columnCount types .str + column.2 =
                  r * columnCount types .str + column.2 := fun hsame => by
                have := (cell_injective hindex hindex hsame).1
                omega
              rw [if_neg hne]
              exact hcodes r code hcode
            · have hlast := (List.getElem?_eq_some_iff.mp hcode).1
              rw [List.length_append, length_encode, List.length_singleton] at hlast
              obtain rfl : r = (done c').length := by omega
              rw [← length_encode strMaxUniqueEach strBufSizeEach (done c'),
                List.getElem?_concat_length] at hcode
              obtain rfl := Option.some.inj hcode
              rw [if_pos rfl, if_pos ((cell_lt hrow hindex).trans_le h.codes)]
        · have hother : column'.2 ≠ column.2 := fun hsame =>
            heq (index_injective hc' hc (hgroup'.trans hgroup.symm) hsame)
          rw [Function.update_of_ne heq]
          obtain ⟨ctx1, hctx1, hrep1, hcodes1⟩ := h.strings c' column' hc' hgroup'
          refine ⟨ctx1, ?_, hrep1, fun r code hcode => ?_⟩
          · simp only [List.getElem?_set]
            rw [if_neg hother.symm, hctx1]
          · simp only [List.getElem?_set]
            have hne : ¬(done c).length * columnCount types .str + column.2 =
                r * columnCount types .str + column'.2 := fun hsame =>
              hother (cell_injective hindex hindex' hsame).2.symm
            rw [if_neg hne]
            exact hcodes1 r code hcode
    · have hlt := cell_lt hrow hindex
      refine .inr ⟨⟨_, rfl⟩, .inl ?_⟩
      omega
  · rw [hfault]
    exact .inr ⟨⟨_, rfl⟩, .inr ⟨hnew, hlarge⟩⟩

/-- **A field is put in its array**, if its index and the position in the share are in the
range of an `int`. -/
theorem Inv.putField (h : Inv types nrows done out) (hc : (columns types)[c]? = some column)
    (hrow : (done c).length < nrows) (text : Text) :
    (∃ out', putField P (columnCount types) (done c).length column text out = .ok out' ∧
      Inv types nrows (Function.update done c (done c ++ [text])) out') ∨
    ((∃ fault, putField P (columnCount types) (done c).length column text out = .error fault) ∧
      (2147483648 < nrows * columnCount types column.1.group ∨
        column.1.group = .str ∧ text ∉ (encode strMaxUniqueEach strBufSizeEach (done c)).1 ∧
          2147483647 <
            (layout ((encode strMaxUniqueEach strBufSizeEach (done c)).1 ++ [text])).length)) := by
  have hindex := index_lt hc
  rw [Csv.putField]
  cases hgroup : column.1.group with
  | num =>
      rw [hgroup] at hindex
      rw [storeCell_eq h.num hrow hindex]
      by_cases hint : (done c).length * columnCount types .num + column.2 ≤ 2147483647
      · rw [if_pos hint]
        refine .inl ⟨_, rfl, by simpa using h.num, h.codes, h.stamps, h.shares, ?_, ?_⟩
        · exact h.cells_update hc (hgroup ▸ hint)
        · exact h.strings_update hc (by simp [hgroup]) rfl rfl
      · have hlt := cell_lt hrow hindex
        rw [if_neg hint]
        exact .inr ⟨⟨_, rfl⟩, .inl (by omega)⟩
  | str =>
      rcases h.putString hc hgroup hrow text with hok | ⟨hfault, hbad⟩
      · exact .inl hok
      · exact .inr ⟨hfault, hbad.imp_right fun hlarge => ⟨rfl, hlarge⟩⟩
  | stamp =>
      rw [hgroup] at hindex
      rw [storeCell_eq h.stamps hrow hindex]
      by_cases hint : (done c).length * columnCount types .stamp + column.2 ≤ 2147483647
      · rw [if_pos hint]
        refine .inl ⟨_, rfl, h.num, h.codes, by simpa using h.stamps, h.shares, ?_, ?_⟩
        · exact h.cells_update hc (hgroup ▸ hint)
        · exact h.strings_update hc (by simp [hgroup]) rfl rfl
      · have hlt := cell_lt hrow hindex
        rw [if_neg hint]
        exact .inr ⟨⟨_, rfl⟩, .inl (by omega)⟩

/-! ## Rows -/

/-- A loop that keeps an invariant, or fails for a reason that is known before. -/
theorem foldlM_or {α σ : Type} {f : σ → α → Except Fault σ} {J : ℕ → σ → Prop} {Q : Prop}
    {l : List α} {s : σ} (h0 : J 0 s)
    (hstep : ∀ c a s, l[c]? = some a → J c s →
      (∃ s', f s a = .ok s' ∧ J (c + 1) s') ∨ ((∃ fault, f s a = .error fault) ∧ Q)) :
    (∃ s', l.foldlM f s = .ok s' ∧ J l.length s') ∨
      ((∃ fault, l.foldlM f s = .error fault) ∧ Q) := by
  induction l generalizing J s with
  | nil => exact .inl ⟨s, rfl, h0⟩
  | cons a l ih =>
      rw [List.foldlM_cons]
      rcases hstep 0 a s rfl h0 with ⟨s1, hf, h1⟩ | ⟨⟨fault, hf⟩, hbad⟩
      · rw [hf, ok_bind]
        exact ih h1 fun c b s hc => hstep (c + 1) b s (by simpa using hc)
      · rw [hf, error_bind]
        exact .inr ⟨⟨fault, rfl⟩, hbad⟩

/-- The texts of a column; a line that is too short has empty ones. -/
def columnTexts (rows : List (List Text)) (c : ℕ) : List Text :=
  rows.map fun fields => fields.getD c []

/-- A cell has an index that is not an `int`, or a column of strings has not enough room. -/
def TooLarge (types : List ColType) (nrows : ℕ) (rows : List (List Text)) : Prop :=
  (∃ g, 2147483648 < nrows * columnCount types g) ∨
    ∃ c column, (columns types)[c]? = some column ∧ column.1.group = .str ∧
      ¬Fits strMaxUniqueEach strBufSizeEach (columnTexts rows c)

variable {rows all rest : List (List Text)} {fields : List Text} {file line : List UInt8}
  {more : List (List UInt8)}

@[simp] theorem length_columns (types : List ColType) : (columns types).length = types.length := by
  have hlen : ∀ (n : Group → ℕ), (columnsFrom n types).length = types.length := by
    induction types with
    | nil => exact fun n => rfl
    | cons ct types ih => exact fun n => congrArg (· + 1) (ih _)
  exact hlen _

theorem putMissing_eq (count : Group → ℕ) :
    putMissing P count row column out = putField P count row column [] out := by
  rw [putMissing, putField]
  simp only [if_true]

/-- The fields that are missing are empty ones. -/
theorem readRow_eq (hsplit : splitFields delim types.length line = .ok fields) :
    readRow P delim types row line out = ((columns types).zip
      (fields ++ List.replicate (types.length - fields.length) [])).foldlM
        (fun out (column, text) => putField P (columnCount types) row column text out) out := by
  rw [readRow, hsplit, ok_bind]
  have hmissing : ∀ (l : List (ColType × ℕ)) (out : Output ν τ), l.foldlM (fun out column =>
      putMissing P (columnCount types) row column out) out =
      (l.zip (List.replicate l.length [])).foldlM (fun out (column, text) =>
        putField P (columnCount types) row column text out) out := by
    intro l
    induction l with
    | nil => exact fun out => rfl
    | cons column l ih =>
        intro out
        rw [List.foldlM_cons, putMissing_eq, List.length_cons, List.replicate_succ,
          List.zip_cons_cons, List.foldlM_cons]
        exact bind_congr fun out => ih out
  simp only [hmissing]
  rw [← List.foldlM_append]
  congr 1
  rcases Nat.le_total fields.length types.length with hle | hle
  · have htake : ((columns types).take fields.length).length = fields.length := by
      rw [List.length_take, length_columns]
      omega
    conv_rhs => rw [← List.take_append_drop fields.length (columns types)]
    rw [List.zip_append htake, List.length_drop, length_columns]
    congr 1
    conv_lhs => rw [List.zip_eq_zip_take_min, length_columns, min_eq_right hle, List.take_length]
  · rw [List.drop_eq_nil_of_le (by simpa using hle), Nat.sub_eq_zero_of_le hle]
    simp

theorem getElem?_padded (n : ℕ) (h : (fields ++ List.replicate n [])[c]? = some text) :
    text = fields.getD c [] := by
  rw [List.getD_eq_getElem?_getD]
  rcases Nat.lt_or_ge c fields.length with hlt | hge
  · rw [List.getElem?_append_left hlt] at h
    rw [h, Option.getD_some]
  · rw [List.getElem?_append_right hge] at h
    rw [List.getElem?_eq_none hge, Option.getD_none]
    exact List.eq_of_mem_replicate (List.mem_of_getElem? h)

theorem columnTexts_append (rows : List (List Text)) (fields : List Text) (c : ℕ) :
    columnTexts (rows ++ [fields]) c = columnTexts rows c ++ [fields.getD c []] := by
  simp [columnTexts]

/-- A string that leaves the range of an `int` is too large for its column. -/
theorem not_fits_of_large (hbefore : rows ++ [fields] <+: all)
    (hnew : fields.getD c [] ∉ (encode strMaxUniqueEach strBufSizeEach (columnTexts rows c)).1)
    (hlarge : 2147483647 < (layout ((encode strMaxUniqueEach strBufSizeEach
      (columnTexts rows c)).1 ++ [fields.getD c []])).length) :
    ¬Fits strMaxUniqueEach strBufSizeEach (columnTexts all c) := by
  intro h
  have hsubset : ∀ t ∈ columnTexts (rows ++ [fields]) c, t ∈ columnTexts all c := fun t ht =>
    (hbefore.map _).subset ht
  rw [columnTexts_append] at hsubset
  have hpool := pool_encode strMaxUniqueEach strBufSizeEach (columnTexts rows c)
  have hpool' : Pool strMaxUniqueEach strBufSizeEach (columnTexts all c)
      (encode strMaxUniqueEach strBufSizeEach (columnTexts rows c)).1 :=
    ⟨hpool.nodup, fun t ht => hsubset t (List.mem_append_left _ (hpool.subset t ht)),
      hpool.length_le, hpool.layout_le⟩
  have hroom := (h.enter hpool' (hsubset _ (by simp)) hnew).2
  unfold strBufSizeEach at hroom hlarge
  omega

/-- The fields of a line are the next ones of their columns. -/
theorem Inv.readRow (h : Inv types nrows (columnTexts rows) out) (hrow : rows.length < nrows)
    (hsplit : splitFields delim types.length line = .ok fields)
    (hbefore : rows ++ [fields] <+: all) :
    (∃ out', readRow P delim types rows.length line out = .ok out' ∧
      Inv types nrows (columnTexts (rows ++ [fields])) out') ∨
    ((∃ fault, readRow P delim types rows.length line out = .error fault) ∧
      TooLarge types nrows all) := by
  rw [readRow_eq hsplit]
  set cells := (columns types).zip
    (fields ++ List.replicate (types.length - fields.length) []) with hcells
  have hlen : cells.length = types.length := by
    rw [hcells, List.length_zip, length_columns, List.length_append, List.length_replicate]
    omega
  have hfold := foldlM_or (J := fun k (out : Output ν τ) => Inv types nrows
      (fun c => if c < k then columnTexts (rows ++ [fields]) c else columnTexts rows c) out)
    (f := fun out (cell : (ColType × ℕ) × Text) =>
      Csv.putField P (columnCount types) rows.length cell.1 cell.2 out) (l := cells) (s := out)
    (Q := TooLarge types nrows all) (h.congr fun c _ => by simp) ?_
  · rcases hfold with ⟨out', hrun, h'⟩ | hfault
    · refine .inl ⟨out', hrun, h'.congr fun c hc => ?_⟩
      rw [hlen, if_pos hc]
    · exact .inr hfault
  · rintro c ⟨column, text⟩ s hc hs
    obtain ⟨hcolumn, htext⟩ := List.getElem?_zip_eq_some.mp hc
    obtain rfl := getElem?_padded _ htext
    have hdone : (if c < c then columnTexts (rows ++ [fields]) c else columnTexts rows c) =
        columnTexts rows c := if_neg (Nat.lt_irrefl c)
    have hlength : (columnTexts rows c).length = rows.length := List.length_map _
    have hput := hs.putField (P := P) hcolumn (by rwa [hdone, hlength]) (fields.getD c [])
    rw [hdone, hlength] at hput
    rcases hput with ⟨s', hrun, h'⟩ | ⟨hfault, hbad⟩
    · refine .inl ⟨s', hrun, h'.congr fun c' _ => ?_⟩
      by_cases heq : c' = c
      · rw [heq, Function.update_self, if_pos (Nat.lt_succ_self c), columnTexts_append]
      · have hiff : c' < c + 1 ↔ c' < c := by omega
        rw [Function.update_of_ne heq]
        simp only [hiff]
    · refine .inr ⟨hfault, ?_⟩
      rcases hbad with hindex | ⟨hgroup, hnew, hlarge⟩
      · exact .inl ⟨_, hindex⟩
      · exact .inr ⟨c, column, hcolumn, hgroup, not_fits_of_large hbefore hnew hlarge⟩

/-- The lines that are not blank, without their newlines. -/
def dataLines (more : List (List UInt8)) : List (List UInt8) :=
  (more.map stripLine).filter (· ≠ [])

/-- **The loop over the lines** reads the fields of the rows that are asked for. -/
theorem Inv.readRows (h : Inv types nrows (columnTexts rows) out) (hrow : rows.length ≤ nrows)
    (hsplit : ((dataLines more).take (nrows - rows.length)).mapM
      (splitFields delim types.length) = .ok rest) :
    (∃ out', readRows P delim types nrows more rows.length out =
        .ok (out', (rows ++ rest).length) ∧
      Inv types nrows (columnTexts (rows ++ rest)) out') ∨
    ((∃ fault, readRows P delim types nrows more rows.length out = .error fault) ∧
      TooLarge types nrows (rows ++ rest)) := by
  induction more generalizing rows rest out with
  | nil =>
      have hnone : dataLines [] = [] := rfl
      rw [hnone, List.take_nil] at hsplit
      obtain rfl : [] = rest := Except.ok.inj hsplit
      rw [List.append_nil]
      exact .inl ⟨out, rfl, h⟩
  | cons line more ih =>
      rw [Csv.readRows]
      by_cases hlt : rows.length < nrows
      · rw [if_pos hlt]
        by_cases hblank : stripLine line = []
        · have hskip : dataLines (line :: more) = dataLines more := by simp [dataLines, hblank]
          rw [hskip] at hsplit
          rw [if_pos hblank]
          exact ih h hrow hsplit
        · have hnext : dataLines (line :: more) = stripLine line :: dataLines more := by
            simp [dataLines, hblank]
          have hcount : nrows - rows.length = nrows - (rows.length + 1) + 1 := by omega
          rw [hnext, hcount, List.take_succ_cons, List.mapM_cons] at hsplit
          obtain ⟨fields, hfields, hsplit⟩ := bind_ok.mp hsplit
          obtain ⟨rest', hrest, hsplit⟩ := bind_ok.mp hsplit
          obtain rfl := Except.ok.inj hsplit
          have hbefore : rows ++ [fields] <+: rows ++ fields :: rest' :=
            ⟨rest', by rw [List.append_assoc, List.singleton_append]⟩
          rw [if_neg hblank]
          rcases h.readRow (P := P) hlt hfields hbefore with
            ⟨out1, hrun, h1⟩ | ⟨⟨fault, hrun⟩, hbad⟩
          · rw [hrun, ok_bind]
            have hlen : (rows ++ [fields]).length = rows.length + 1 := by simp
            have hnext := ih h1 (by omega) (by rwa [hlen])
            rw [hlen, List.append_assoc, List.singleton_append] at hnext
            exact hnext
          · rw [hrun, error_bind]
            exact .inr ⟨⟨fault, rfl⟩, hbad⟩
      · rw [show nrows - rows.length = 0 by omega, List.take_zero] at hsplit
        obtain rfl : [] = rest := Except.ok.inj hsplit
        rw [if_neg hlt, List.append_nil]
        exact .inl ⟨out, rfl, h⟩

/-! ## The shares -/

theorem initCtx_ok {nStr s : ℕ} (hs : s < nStr) (hsmall : s ≤ 2047) :
    ∃ ctx, initCtx (List.replicate (max 1 (nStr * strBufSizeEach)) 0)
        (List.replicate (max 1 (nStr * strMaxUniqueEach)) 0) s = .ok ctx ∧
      Represents strMaxUniqueEach strBufSizeEach ctx [] := by
  have hbase : s * strBufSizeEach ≤ 2147483647 := by
    unfold strBufSizeEach
    omega
  have hfirst : s * strMaxUniqueEach ≤ 2147483647 := by
    unfold strMaxUniqueEach
    omega
  have hlength : ∀ size : ℕ, ((List.replicate (max 1 (nStr * size)) (0 : ℕ)).drop
      (s * size)).length ≥ size := by
    intro size
    have hle : (s + 1) * size ≤ nStr * size := Nat.mul_le_mul_right size hs
    rw [List.length_drop, List.length_replicate]
    rw [Nat.succ_mul] at hle
    omega
  rw [initCtx, nonnegInt, nonnegInt, if_pos hbase, if_pos hfirst, ok_bind, ok_bind]
  refine ⟨_, rfl, represents_init ?_ ?_⟩
  · have := hlength strBufSizeEach
    rw [List.length_drop, List.length_replicate] at this
    rw [List.length_take, List.length_drop, List.length_replicate]
    omega
  · have := hlength strMaxUniqueEach
    rw [List.length_take]
    omega

/-- There are shares for 2048 columns of strings. -/
theorem initCtx_error (bufs : List UInt8) (offsets : List ℕ) :
    initCtx bufs offsets 2048 = .error .undefined := by
  have hlarge : ¬2048 * strBufSizeEach ≤ 2147483647 := by decide
  rw [initCtx, nonnegInt, if_neg hlarge, error_bind]

theorem exists_mapM {α β : Type} {f : α → Except Fault β} {p : β → Prop} {l : List α}
    (h : ∀ a ∈ l, ∃ b, f a = .ok b ∧ p b) : ∃ bs, l.mapM f = .ok bs ∧ ∀ b ∈ bs, p b := by
  induction l with
  | nil => exact ⟨[], rfl, by simp⟩
  | cons a l ih =>
      obtain ⟨b, hb, hp⟩ := h a (by simp)
      obtain ⟨bs, hbs, hall⟩ := ih fun a ha => h a (by simp [ha])
      refine ⟨b :: bs, ?_, by simpa [hp] using hall⟩
      rw [List.mapM_cons, hb, hbs]
      rfl

/-- The contexts of up to 2048 columns of strings, and of no more. -/
theorem initCtxs (nStr : ℕ) :
    (nStr ≤ 2048 ∧ ∃ ctxs, (List.range nStr).mapM (initCtx
        (List.replicate (max 1 (nStr * strBufSizeEach)) 0)
        (List.replicate (max 1 (nStr * strMaxUniqueEach)) 0)) = .ok ctxs ∧ ctxs.length = nStr ∧
      ∀ ctx ∈ ctxs, Represents strMaxUniqueEach strBufSizeEach ctx []) ∨
    (2048 < nStr ∧ ∀ ctxs, (List.range nStr).mapM (initCtx
        (List.replicate (max 1 (nStr * strBufSizeEach)) 0)
        (List.replicate (max 1 (nStr * strMaxUniqueEach)) 0)) ≠ .ok ctxs) := by
  rcases Nat.lt_or_ge 2048 nStr with hlarge | hle
  · refine .inr ⟨hlarge, fun ctxs hrun => ?_⟩
    obtain ⟨hlen, hall⟩ := List.forall₂_iff_get.mp (mapM_ok_iff.mp hrun)
    rw [List.length_range] at hlen
    have hctx := hall 2048 (by simpa using hlarge) (hlen ▸ hlarge)
    simp only [List.get_eq_getElem, List.getElem_range, initCtx_error] at hctx
    exact absurd hctx (by simp)
  · obtain ⟨ctxs, hrun, hrep⟩ := exists_mapM (l := List.range nStr) fun s hs =>
      initCtx_ok (List.mem_range.mp hs) (by have := List.mem_range.mp hs; omega)
    have hlen := (mapM_ok_iff.mp hrun).length_eq
    rw [List.length_range] at hlen
    exact .inl ⟨hle, ctxs, hrun, hlen.symm, hrep⟩

/-- The arrays before the first row. -/
theorem inv_init {out : Output ν τ} (hnum : nrows * columnCount types .num ≤ out.numData.length)
    (hcodes : nrows * columnCount types .str ≤ out.strCodes.length)
    (hstamps : nrows * columnCount types .stamp ≤ out.stampData.length)
    (hlen : out.strCtxs.length = columnCount types .str)
    (hrep : ∀ ctx ∈ out.strCtxs, Represents strMaxUniqueEach strBufSizeEach ctx []) :
    Inv types nrows (columnTexts []) out := by
  refine ⟨hnum, hcodes, hstamps, fun ctx hctx => ⟨(hrep ctx hctx).share, (hrep ctx hctx).places⟩,
    fun c column _ r hr => absurd hr (Nat.not_lt_zero r), fun c column hc hgroup => ?_⟩
  have hindex := index_lt hc
  rw [hgroup, ← hlen] at hindex
  refine ⟨out.strCtxs[column.2], List.getElem?_eq_getElem hindex,
    hrep _ (List.getElem_mem hindex), fun r code hcode => ?_⟩
  exact absurd hcode (by simp [encode, columnTexts])

/-! ## What `csv-read` returns -/

theorem mapM_range {β : Type} {f : ℕ → Option β} {l : List β}
    (h : ∀ (i : ℕ) (b : β), l[i]? = some b → f i = some b) :
    (List.range l.length).mapM f = some l := by
  induction l using List.reverseRecOn with
  | nil => rfl
  | append_singleton l b ih =>
      have hinit := ih fun i c hi => h i c (by
        rw [List.getElem?_append_left (List.getElem?_eq_some_iff.mp hi).1, hi])
      have hlast := h l.length b List.getElem?_concat_length
      rw [List.length_append, List.length_singleton, List.range_succ, List.mapM_append, hinit]
      simp [hlast]

/-- The shares follow each other. -/
theorem drop_flatMap {α β : Type} {f : α → List β} {l : List α} {m i : ℕ} {a : α}
    (h : ∀ a ∈ l, (f a).length = m) (hi : l[i]? = some a) :
    (l.flatMap f).drop (i * m) = f a ++ (l.drop (i + 1)).flatMap f := by
  induction l generalizing i with
  | nil => simp at hi
  | cons b l ih =>
      cases i with
      | zero =>
          obtain rfl : b = a := by simpa using hi
          simp
      | succ i =>
          have hb := h b (by simp)
          rw [List.flatMap_cons, Nat.succ_mul, Nat.add_comm, ← List.drop_drop]
          rw [show (f b ++ l.flatMap f).drop m = l.flatMap f by rw [← hb, List.drop_left]]
          exact ih (fun a ha => h a (by simp [ha])) (by simpa using hi)

theorem takeWhile_zero (t : Text) (rest : List UInt8) :
    (t ++ [0] ++ rest).takeWhile (0 < ·) = readBack t := by
  rw [readBack]
  induction t with
  | nil => simp
  | cons c t ih =>
      simp only [List.cons_append, List.takeWhile_cons]
      rw [ih]

/-- The strings of a column are those of its pool, up to their zero bytes. -/
theorem Inv.stringColumn (h : Inv types nrows done out) (hc : (columns types)[c]? = some column)
    (hgroup : column.1.group = .str) (hdone : (done c).length = nrows) :
    stringColumn types nrows column.2 out =
      some ((encode strMaxUniqueEach strBufSizeEach (done c)).2.map (Option.getD · 0),
        (encode strMaxUniqueEach strBufSizeEach (done c)).1.map readBack) := by
  obtain ⟨ctx, hctx, hrep, hcodes⟩ := h.strings c column hc hgroup
  set s := encode strMaxUniqueEach strBufSizeEach (done c) with hs
  have hlen : s.2.length = nrows := (length_encode ..).trans hdone
  have hcell : (List.range nrows).mapM (fun r =>
      out.strCodes[r * columnCount types .str + column.2]?) = some (s.2.map (Option.getD · 0)) := by
    rw [← hlen, ← List.length_map (f := (Option.getD · 0))]
    refine mapM_range fun r k hr => ?_
    obtain ⟨code, hcode, rfl⟩ := Option.map_eq_some_iff.mp (List.getElem?_map.symm.trans hr)
    exact hcodes r code hcode
  have hstring : (List.range ctx.nextCode).mapM (fun u =>
      (out.strCtxs.flatMap (·.uniqueOffsets))[column.2 * strMaxUniqueEach + u]?.bind fun offset =>
        some (csvExtractString (out.strCtxs.flatMap (·.uniqueBuf))
          (column.2 * strBufSizeEach + offset))) = some (s.1.map readBack) := by
    rw [hrep.nextCode, ← List.length_map (f := readBack)]
    refine mapM_range fun u str hu => ?_
    obtain ⟨t, ht, rfl⟩ := Option.map_eq_some_iff.mp (List.getElem?_map.symm.trans hu)
    have hlt := (List.getElem?_eq_some_iff.mp ht).1
    have hplaces := drop_flatMap (fun ctx hmem => (h.shares ctx hmem).2) hctx
    have hbuf := drop_flatMap (fun ctx hmem => (h.shares ctx hmem).1) hctx
    obtain ⟨rest, hrest⟩ := hrep.buf
    rw [← List.getElem?_drop, hplaces, List.getElem?_append_left (by
      rw [hrep.places]; exact hlt.trans_le hrep.length_le), hrep.offsets u hlt, Option.bind_some,
      csvExtractString, ← List.drop_drop, hbuf, ← hrest, layout_eq ht, place]
    simp only [List.append_assoc, List.drop_left]
    rw [← List.append_assoc, takeWhile_zero]
  rw [Csv.stringColumn, hcell, hctx]
  simp only [Option.bind_eq_bind, Option.bind_some] at hstring ⊢
  rw [hstring, Option.bind_some]

/-! ## The whole file -/

/-- The fields of the rows that are asked for. -/
def splitRows (file : List UInt8) (delim : UInt8) (types : List ColType) (nrows : ℕ) :
    Except Fault (List (List Text)) :=
  ((dataLines (lines file).tail).take nrows).mapM (splitFields delim types.length)

/-- The string that the code of a row designates is the text of the row, and codes are
equal if and only if the texts are. -/
def ReadBack (types : List ColType) (nrows oi : ℕ) (texts : List Text) (out : Output ν τ) : Prop :=
  ∃ codes strings, stringColumn types nrows oi out = some (codes, strings) ∧
    (∀ (r : ℕ) (t : Text), texts[r]? = some t →
      ∃ k : ℕ, codes[r]? = some k ∧ strings[k]? = some t) ∧
    ∀ (r r' : ℕ) (t t' : Text), texts[r]? = some t → texts[r']? = some t' →
      (codes[r]? = codes[r']? ↔ t = t')

/-- The file is read without a write outside of a share, and every column of strings has
the fields of the rows. -/
def Faithful (P : Parsers ν τ) (file : List UInt8) (delim : UInt8) (types : List ColType)
    (nrows : ℕ) : Prop :=
  ∃ rows out, splitRows file delim types nrows = .ok rows ∧
    readAll P file delim types nrows = .ok (0, out) ∧
    ∀ c column, (columns types)[c]? = some column → column.1 = .string →
      ReadBack types nrows column.2 (columnTexts rows c) out

/-- The rows, the columns and the strings are not more than there is room for. -/
def HasRoom (types : List ColType) (nrows : ℕ) (rows : List (List Text)) : Prop :=
  columnCount types .str ≤ 2048 ∧ (∀ g, nrows * columnCount types g ≤ 2147483648) ∧
    ∀ c, types[c]? = some .string → Fits strMaxUniqueEach strBufSizeEach (columnTexts rows c)

theorem group_eq_str_iff {ct : ColType} : ct.group = .str ↔ ct = .string := by
  cases ct <;> simp [ColType.group]

theorem HasRoom.not_tooLarge (h : HasRoom types nrows rows) : ¬TooLarge types nrows rows := by
  obtain ⟨-, hindex, hfits⟩ := h
  rintro (⟨g, hg⟩ | ⟨c, column, hc, hgroup, hnot⟩)
  · have := hindex g
    omega
  · have hct := (columns_eq_some_iff.mp hc).1
    rw [group_eq_str_iff.mp hgroup] at hct
    exact hnot (hfits c hct)

theorem lines_ne_nil (hfile : file ≠ []) : ∃ header more, lines file = header :: more := by
  cases file with
  | nil => exact absurd rfl hfile
  | cons c rest =>
      rw [lines]
      split_ifs
      · exact ⟨_, _, rfl⟩
      · cases lines rest <;> exact ⟨_, _, rfl⟩

/-- **What `dt_csv_read_all` does** with a file that has the rows that are asked for. -/
theorem readAll_cases (hfile : file ≠ []) (hrows : nrows ≤ (dataLines (lines file).tail).length)
    (hsplit : splitRows file delim types nrows = .ok rows) :
    (columnCount types .str ≤ 2048 ∧ ∃ out, readAll P file delim types nrows = .ok (0, out) ∧
      Inv types nrows (columnTexts rows) out) ∨
    ((∀ r, readAll P file delim types nrows ≠ .ok r) ∧
      (2048 < columnCount types .str ∨ TooLarge types nrows rows)) := by
  obtain ⟨header, more, hlines⟩ := lines_ne_nil hfile
  rw [hlines, List.tail_cons] at hrows
  rw [splitRows, hlines, List.tail_cons] at hsplit
  have hlen : rows.length = nrows := by
    have := (mapM_ok_iff.mp hsplit).length_eq
    rw [List.length_take] at this
    omega
  rw [readAll, hlines]
  simp only
  rcases initCtxs (columnCount types .str) with ⟨hle, ctxs, hrun, hctxs, hrep⟩ | ⟨hlarge, hfail⟩
  · rw [hrun, ok_bind]
    have hinit : Inv types nrows (columnTexts []) (⟨List.replicate (max 1 nrows *
        max 1 (columnCount types .num)) none,
        List.replicate (max 1 (nrows * columnCount types .str)) 0,
        List.replicate (max 1 (nrows * columnCount types .stamp)) none, ctxs⟩ : Output ν τ) := by
      refine inv_init ?_ ?_ ?_ hctxs hrep
      · simp only [List.length_replicate]
        exact Nat.mul_le_mul (le_max_right 1 _) (le_max_right 1 _)
      · simp
      · simp
    have hread := hinit.readRows (P := P) (Nat.zero_le nrows) (by simpa using hsplit)
    rw [List.nil_append, List.length_nil, hlen] at hread
    rcases hread with ⟨out, hrows, h⟩ | ⟨⟨fault, hrows⟩, hbad⟩
    · refine .inl ⟨hle, out, ?_, h⟩
      rw [hrows, ok_bind, if_pos le_rfl]
    · refine .inr ⟨fun r hr => ?_, .inr hbad⟩
      rw [hrows, error_bind] at hr
      exact absurd hr (by simp)
  · refine .inr ⟨fun r hr => ?_, .inl hlarge⟩
    obtain ⟨ctxs, hctxs, -⟩ := bind_ok.mp hr
    exact hfail ctxs hctxs

/-- The last column of an array. -/
theorem exists_last_column {g : Group} (h : 0 < columnCount types g) :
    ∃ (c : ℕ) (ct : ColType), types[c]? = some ct ∧ ct.group = g ∧
      columnCount (types.take c) g + 1 = columnCount types g := by
  induction types using List.reverseRecOn with
  | nil => exact absurd h (by simp [columnCount])
  | append_singleton types ct ih =>
      have hcount : columnCount (types ++ [ct]) g =
          columnCount types g + if ct.group = g then 1 else 0 := by
        rw [columnCount, List.countP_append, ← columnCount]
        congr 1
        split_ifs with hg <;> simp [hg]
      by_cases hg : ct.group = g
      · refine ⟨types.length, ct, List.getElem?_concat_length, hg, ?_⟩
        rw [List.take_left, hcount, if_pos hg]
      · rw [hcount, if_neg hg, Nat.add_zero] at h ⊢
        obtain ⟨c, ct', hct, hg', hlast⟩ := ih h
        have hlt := (List.getElem?_eq_some_iff.mp hct).1
        refine ⟨c, ct', by rw [List.getElem?_append_left hlt, hct], hg', ?_⟩
        rw [List.take_append_of_le_length hlt.le, hlast]

/-- All cells have an index that is an `int` when the one of the last row has. -/
theorem Inv.index_le (h : Inv types nrows done out) (hdone : ∀ c, (done c).length = nrows)
    (g : Group) : nrows * columnCount types g ≤ 2147483648 := by
  rcases Nat.eq_zero_or_pos (columnCount types g) with hzero | hpos
  · rw [hzero]
    exact Nat.zero_le _
  · rcases Nat.eq_zero_or_pos nrows with hrows | hrows
    · rw [hrows, Nat.zero_mul]
      exact Nat.zero_le _
    · obtain ⟨c, ct, hct, rfl, hlast⟩ := exists_last_column hpos
      have hcell := h.cells c (ct, columnCount (types.take c) ct.group)
        (columns_eq_some_iff.mpr ⟨hct, rfl⟩) (nrows - 1) (by rw [hdone]; omega)
      have hprod : (nrows - 1) * columnCount types ct.group + columnCount types ct.group =
          nrows * columnCount types ct.group := by
        rw [← Nat.succ_mul]
        congr 1
        omega
      simp only at hcell
      omega

/-- A column that is read back has room for its strings. -/
theorem ReadBack.fits (h : Inv types nrows done out) (hc : (columns types)[c]? = some column)
    (hgroup : column.1.group = .str) (hdone : (done c).length = nrows)
    (hread : ReadBack types nrows column.2 (done c) out) :
    Fits strMaxUniqueEach strBufSizeEach (done c) := by
  obtain ⟨codes, strings, hcolumn, htexts, -⟩ := hread
  rw [h.stringColumn hc hgroup hdone] at hcolumn
  obtain ⟨rfl, rfl⟩ := Prod.mk.inj (Option.some.inj hcolumn)
  refine decodes_iff_fits.mp fun r t hr => ?_
  obtain ⟨k, hk, hstr⟩ := htexts r t hr
  obtain ⟨code, hcode, rfl⟩ := Option.map_eq_some_iff.mp (List.getElem?_map.symm.trans hk)
  exact ⟨code, hcode, hstr⟩

theorem Fits.readBack (h : Inv types nrows done out) (hc : (columns types)[c]? = some column)
    (hgroup : column.1.group = .str) (hdone : (done c).length = nrows)
    (hfits : Fits strMaxUniqueEach strBufSizeEach (done c)) :
    ReadBack types nrows column.2 (done c) out := by
  refine ⟨_, _, h.stringColumn hc hgroup hdone, fun r t hr => ?_, fun r r' t t' hr hr' => ?_⟩
  · obtain ⟨code, hcode, hstr⟩ := decodes_iff_fits.mpr hfits r t hr
    exact ⟨code.getD 0, by rw [List.getElem?_map, hcode]; rfl, hstr⟩
  · obtain ⟨k, hk, hget⟩ := hfits.codes r t hr
    obtain ⟨k', hk', hget'⟩ := hfits.codes r' t' hr'
    have hnodup := (pool_encode strMaxUniqueEach strBufSizeEach (done c)).nodup
    rw [List.getElem?_map, List.getElem?_map, hk, hk']
    simp only [Option.map_some, Option.getD_some, Option.some.injEq]
    constructor
    · rintro rfl
      exact Option.some.inj (hget.symm.trans hget')
    · rintro rfl
      obtain ⟨hlt, heq⟩ := List.getElem?_eq_some_iff.mp hget
      obtain ⟨hlt', heq'⟩ := List.getElem?_eq_some_iff.mp hget'
      exact hnodup.getElem_inj_iff.mp (heq.trans heq'.symm)

theorem length_splitRows (hrows : nrows ≤ (dataLines (lines file).tail).length)
    (hsplit : splitRows file delim types nrows = .ok rows) (c : ℕ) :
    (columnTexts rows c).length = nrows := by
  have := (mapM_ok_iff.mp hsplit).length_eq
  rw [List.length_take] at this
  rw [columnTexts, List.length_map]
  omega

theorem Faithful.hasRoom (hfile : file ≠ [])
    (hrows : nrows ≤ (dataLines (lines file).tail).length)
    (h : Faithful P file delim types nrows) :
    ∃ rows, splitRows file delim types nrows = .ok rows ∧ HasRoom types nrows rows := by
  obtain ⟨rows, out, hsplit, hread, hcolumns⟩ := h
  have hlen := length_splitRows hrows hsplit
  refine ⟨rows, hsplit, ?_⟩
  rcases readAll_cases (P := P) hfile hrows hsplit with ⟨hle, out', hread', hinv⟩ | ⟨hfail, -⟩
  · obtain rfl : out = out' := congrArg Prod.snd (Except.ok.inj (hread.symm.trans hread'))
    refine ⟨hle, hinv.index_le hlen, fun c hct => ?_⟩
    have hc : (columns types)[c]? = some (.string, columnCount (types.take c) .str) :=
      columns_eq_some_iff.mpr ⟨hct, rfl⟩
    exact ReadBack.fits hinv hc rfl (hlen c) (hcolumns c _ hc rfl)
  · exact absurd hread (hfail _)

theorem HasRoom.faithful (hfile : file ≠ [])
    (hrows : nrows ≤ (dataLines (lines file).tail).length)
    (hsplit : splitRows file delim types nrows = .ok rows) (h : HasRoom types nrows rows) :
    Faithful P file delim types nrows := by
  have hlen := length_splitRows hrows hsplit
  rcases readAll_cases (P := P) hfile hrows hsplit with ⟨-, out, hread, hinv⟩ | ⟨-, hlarge | hbad⟩
  · refine ⟨rows, out, hsplit, hread, fun c column hc hstring => ?_⟩
    have hgroup : column.1.group = .str := group_eq_str_iff.mpr hstring
    have hct := (columns_eq_some_iff.mp hc).1
    rw [hstring] at hct
    exact (h.2.2 c hct).readBack hinv hc hgroup (hlen c)
  · exact absurd h.1 (by omega)
  · exact absurd hbad h.not_tooLarge

/-- **The dictionary encoding is faithful** if and only if there is room for it. -/
theorem readAll_faithful_iff (P : Parsers ν τ) {file : List UInt8} {nrows : ℕ} (delim : UInt8)
    (types : List ColType) (hfile : file ≠ [])
    (hrows : nrows ≤ (dataLines (lines file).tail).length) :
    Faithful P file delim types nrows ↔
      ∃ rows, splitRows file delim types nrows = .ok rows ∧ HasRoom types nrows rows := by
  constructor
  · exact fun h => h.hasRoom hfile hrows
  · rintro ⟨rows, hsplit, hroom⟩
    exact hroom.faithful hfile hrows hsplit

/-- Nothing is made of numbers and stamps. -/
def noParsers : Parsers Unit Unit := ⟨fun _ => (), (), fun _ _ => (), ()⟩

/-- Two columns and two rows, the second of which is short. -/
theorem readAll_faithful_small :
    Faithful noParsers [104, 44, 107, 10, 120, 44, 121, 10, 120, 10] 44 [.string, .string] 2 := by
  refine (readAll_faithful_iff noParsers 44 [.string, .string] (by decide) (by decide)).mpr
    ⟨[[[120], [121]], [[120]]], rfl, by decide, fun g => ?_, fun c hc => ?_⟩
  · cases g <;> decide
  · have hlt := (List.getElem?_eq_some_iff.mp hc).1
    have hcolumn : c = 0 ∨ c = 1 := by
      simp only [List.length_cons, List.length_nil] at hlt
      omega
    rcases hcolumn with rfl | rfl
    · exact ⟨by decide, by decide, by decide⟩
    · exact ⟨by decide, by decide, by decide⟩

/-! ## A string for which there is no room -/

/-- Characters that do not end or trim a field. -/
def Plain (delim : UInt8) (t : Text) : Prop :=
  ∀ c ∈ t, c ≠ 10 ∧ c ≠ 13 ∧ c ≠ 34 ∧ c ≠ 32 ∧ c ≠ 9 ∧ c ≠ delim

theorem rdropWhile_plain {p : UInt8 → Bool} (h : ∀ c ∈ t, p c = false) : t.rdropWhile p = t := by
  rw [List.rdropWhile_eq_self_iff]
  intro hne
  simp [h _ (List.getLast_mem hne)]

theorem Plain.stripLine (h : Plain delim t) : stripLine t = t :=
  rdropWhile_plain fun c hc => by simp [(h c hc).1, (h c hc).2.1]

theorem Plain.trimBlanks (h : Plain delim t) : trimBlanks t = t := by
  have hblank : ∀ c ∈ t, (decide (c = 32 ∨ c = 9)) = false := fun c hc => by
    simp [(h c hc).2.2.2.1, (h c hc).2.2.2.2.1]
  have hfront : t.dropWhile (fun c => decide (c = 32 ∨ c = 9)) = t := by
    rw [List.dropWhile_eq_self_iff]
    intro hpos
    simp [hblank _ (List.getElem_mem hpos)]
  rw [Csv.trimBlanks, hfront, rdropWhile_plain hblank]

theorem Plain.scanUnquoted (h : Plain delim t) {i : ℕ} (hint : i + t.length ≤ 2147483647) :
    scanUnquoted delim t i = .ok (i + t.length) := by
  induction t generalizing i with
  | nil => rfl
  | cons c t ih =>
      have hc := (h c (by simp)).2.2.2.2.2
      rw [List.length_cons] at hint
      rw [Csv.scanUnquoted, if_neg hc, nonnegInt, if_pos (by omega), ok_bind,
        ih (fun c hc => h c (by simp [hc])) (by omega), List.length_cons]
      congr 1
      omega

/-- A line of these characters is one field. -/
theorem Plain.splitFields (h : Plain delim t) (hne : t ≠ []) (hint : t.length ≤ 2147483647)
    (n : ℕ) : splitFields delim (n + 1) t = .ok [t] := by
  have hquote : ¬t[0]? = some 34 := by
    intro hfirst
    exact (h 34 (List.mem_of_getElem? hfirst)).2.2.1 rfl
  have hend : ¬t[0 + t.length]? = some delim := by simp
  rw [Csv.splitFields, h.stripLine]
  simp only [hne, if_false]
  rw [fieldsFrom, nextField, if_neg hquote, List.drop_zero,
    h.scanUnquoted (by rwa [Nat.zero_add])]
  simp only [ok_bind, hend, if_false]
  rw [Nat.sub_zero, Nat.zero_add, List.take_length, h.trimBlanks]

theorem Plain.lines (h : Plain delim t) (hne : t ≠ []) : lines t = [t] := by
  induction t with
  | nil => exact absurd rfl hne
  | cons c t ih =>
      rw [Csv.lines, if_neg (h c (by simp)).1]
      cases t with
      | nil => rfl
      | cons c' t => rw [ih (fun c hc => h c (by simp [hc])) (by simp)]

/-- A text of 1048576 bytes. -/
def longText : Text := List.replicate 1048576 97

theorem plain_longText : Plain 44 longText := by
  intro c hc
  rw [List.eq_of_mem_replicate hc]
  decide

/-- There is no room for the closing zero byte of the text in the only row: the row has
the code `0`, and the pool is empty. -/
theorem not_faithful_longText :
    ¬Faithful noParsers (104 :: 10 :: longText) 44 [.string] 1 := by
  have hlen : longText.length = 1048576 := List.length_replicate
  have hne : longText ≠ [] := List.ne_nil_of_length_pos (by rw [hlen]; decide)
  have hlines : lines (104 :: 10 :: longText) = [[104, 10], longText] := by
    rw [lines, lines, plain_longText.lines hne]
    rfl
  have hdata : dataLines (lines (104 :: 10 :: longText)).tail = [longText] := by
    rw [hlines]
    simp [dataLines, plain_longText.stripLine, hne]
  have hfield : splitFields 44 [ColType.string].length longText = .ok [longText] :=
    plain_longText.splitFields hne (by rw [hlen]; decide) 0
  have hsplit : splitRows (104 :: 10 :: longText) 44 [.string] 1 = .ok [[longText]] := by
    rw [splitRows, hdata, List.take_of_length_le (by simp), List.mapM_cons, hfield]
    rfl
  intro h
  obtain ⟨rows, hrows, hroom⟩ := h.hasRoom (by simp) (by rw [hdata]; simp)
  obtain rfl := Except.ok.inj (hsplit.symm.trans hrows)
  have hfits := (hroom.2.2 0 rfl).bytes
  rw [show columnTexts [[longText]] 0 = [longText] from rfl] at hfits
  simp only [List.toFinset_cons, List.toFinset_nil, insert_empty_eq, Finset.sum_singleton,
    hlen] at hfits
  exact absurd hfits (by decide)

end Lush.Csv
