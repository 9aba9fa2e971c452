import Lush.Tables.Joined

/-!
# Equi-joins

The keys are compared as texts.  A join is the relational one if and only if no column is an
`IntColumn`, no key is confused with another one that has the same text (`Apart`), and no
name with a suffix is taken (`NoClash`); see `leftJoin_exact_iff` and `rightJoin_exact_iff`.
-/

namespace Lush.Tables

open Datatable (ColType checked)
open Datatable.StringColumn (rowsWith)

/-! ## The index -/

section

variable {σ : Type} [DecidableEq σ]

theorem mem_rowsWith {rows : List σ} {s : σ} {i : ℕ} :
    i ∈ rowsWith rows s ↔ rows[i]? = some s := by
  rw [rowsWith, List.mem_filter, List.mem_range, decide_eq_true_iff, and_iff_right_iff_imp]
  exact fun h => (List.getElem?_eq_some_iff.mp h).1

theorem nodup_rowsWith (rows : List σ) (s : σ) : (rowsWith rows s).Nodup :=
  List.nodup_range.filter _

theorem rowsWith_append (rows : List σ) (r s : σ) :
    rowsWith (rows ++ [r]) s = rowsWith rows s ++ if r = s then [rows.length] else [] := by
  unfold rowsWith
  rw [List.length_append, List.length_singleton, List.range_succ, List.filter_append]
  congr 1
  · refine List.filter_congr fun i hi => ?_
    rw [List.getElem?_append_left (List.mem_range.mp hi)]
  · by_cases h : r = s
    · simp [h]
    · simp [h]

theorem rowsWith_map {τ : Type} [DecidableEq τ] {f : σ → τ} (hf : Function.Injective f)
    (rows : List σ) (s : σ) : rowsWith (rows.map f) (f s) = rowsWith rows s := by
  unfold rowsWith
  rw [List.length_map]
  refine List.filter_congr fun i _ => ?_
  rw [List.getElem?_map, decide_eq_decide, ← Option.map_some, (Option.map_injective hf).eq_iff]

end

theorem buildIndex_eq (keys : List (List UInt8)) (k : List UInt8) :
    buildIndex keys k = rowsWith keys k := by
  unfold buildIndex
  induction keys using List.reverseRecOn with
  | nil => rfl
  | append_singleton keys key ih =>
      rw [List.zipIdx_append, List.foldl_append, rowsWith_append, ← ih]
      by_cases h : key = k
      · simp [h]
      · simp [h, Function.update_of_ne (Ne.symm h)]

theorem bytes_injective : Function.Injective CString.bytes := by
  rintro ⟨s, hs⟩ ⟨s', hs'⟩ rfl
  rfl

theorem buildStringIndex_eq (sc : Dictionary CString) (k : List UInt8) :
    buildStringIndex sc k = rowsWith (sc.rows.map CString.bytes) k := by
  have hpool : ∀ pool : List CString,
      (pool.foldl (fun ht s => if sc.whereEq s = [] then ht
        else Function.update ht s.bytes (sc.whereEq s)) fun _ => []) k =
      if k ∈ pool.map CString.bytes then rowsWith (sc.rows.map CString.bytes) k else [] := by
    intro pool
    induction pool using List.reverseRecOn with
    | nil => rfl
    | append_singleton pool s ih =>
        have hwhere : sc.whereEq s = rowsWith (sc.rows.map CString.bytes) s.bytes :=
          (rowsWith_map bytes_injective sc.rows s).symm
        rw [List.foldl_append, List.foldl_cons, List.foldl_nil, hwhere]
        by_cases hk : s.bytes = k
        · rw [if_pos (show k ∈ (pool ++ [s]).map CString.bytes by simp [hk])]
          by_cases hnil : rowsWith (sc.rows.map CString.bytes) s.bytes = []
          · rw [if_pos hnil, ih, ← hk, hnil, ite_self]
          · rw [if_neg hnil, hk, Function.update_self]
        · have hmem : k ∈ (pool ++ [s]).map CString.bytes ↔ k ∈ pool.map CString.bytes := by
            simp [Ne.symm hk]
          simp only [hmem]
          rw [← ih]
          by_cases hnil : rowsWith (sc.rows.map CString.bytes) s.bytes = []
          · rw [if_pos hnil]
          · rw [if_neg hnil, Function.update_of_ne (Ne.symm hk)]
  refine (hpool sc.pool).trans ?_
  by_cases hk : k ∈ sc.pool.map CString.bytes
  · rw [if_pos hk]
  · rw [if_neg hk, eq_comm, List.eq_nil_iff_forall_not_mem]
    intro i hi
    obtain ⟨s, hs, rfl⟩ := List.mem_map.mp (List.mem_of_getElem? (mem_rowsWith.mp hi))
    obtain ⟨c, -, hc⟩ := List.mem_filterMap.mp hs
    exact hk (List.mem_map_of_mem (List.mem_of_getElem? hc))

/-- **The index of a column**: the rows that have the text. -/
theorem joinBuildIndex_ok {dt : DataTable} {name : String} {col : Column}
    (hcol : dt.getColumn name = .ok col) (htype : col.type ≠ .intcol) :
    ∃ ht, joinBuildIndex dt name = .ok ht ∧
      ∀ k, ht k = rowsWith (col.values.map formatKey) k := by
  simp only [joinBuildIndex, hcol, Bind.bind, Except.bind]
  cases col with
  | numeric t cells => exact ⟨_, rfl, buildIndex_eq _⟩
  | string sc =>
      refine ⟨_, rfl, fun k => ?_⟩
      rw [Column.values, List.map_map]
      exact buildStringIndex_eq sc k
  | intcol ic => exact absurd rfl htype

/-! ## Rows that are joined -/

section

variable {κ γ : Type} {f g : κ → List ℕ} {keys : List κ} {look : Option ℕ → γ}

theorem perm_matched (f : κ → List ℕ) (keys : List κ) :
    Side.perm (joinRows f keys) .matched = keys.flatMap fun v => matchedRows (f v) := by
  have hsnd : ∀ p : κ × ℕ, ((matchedRows (f p.1)).map (Prod.mk p.2)).map Prod.snd =
      matchedRows (f p.1) := fun p => by simp [Function.comp_def]
  rw [Side.perm, joinRows, List.map_flatMap]
  simp only [hsnd]
  rw [← List.flatMap_map Prod.fst fun v => matchedRows (f v), List.zipIdx_map_fst]

theorem perm_kept (f : κ → List ℕ) (keys : List κ) :
    Side.perm (joinRows f keys) .kept =
      keys.zipIdx.flatMap fun p => List.replicate (matchedRows (f p.1)).length (some p.2) := by
  rw [Side.perm, joinRows, List.map_flatMap]
  simp [Function.comp_def, List.map_const']

theorem length_matchedRows_pos (rows : List ℕ) : 0 < (matchedRows rows).length := by
  cases rows with
  | nil => simp [matchedRows]
  | cons r rows => simp [matchedRows]

theorem length_matchedRows_le {rows rows' : List ℕ} (h : rows.Sublist rows') :
    (matchedRows rows).length ≤ (matchedRows rows').length := by
  cases rows with
  | nil => exact length_matchedRows_pos rows'
  | cons r rows =>
      have hlen := h.length_le
      cases rows' with
      | nil => simp at hlen
      | cons r' rows' => simpa [matchedRows] using hlen

/-- Two lists of rows that look the same do so for every key. -/
theorem map_flatMap_eq_iff (h : ∀ v ∈ keys, (g v).Sublist (f v)) :
    (keys.flatMap fun v => matchedRows (g v)).map look =
        (keys.flatMap fun v => matchedRows (f v)).map look ↔
      ∀ v ∈ keys, (matchedRows (g v)).map look = (matchedRows (f v)).map look := by
  induction keys with
  | nil => simp
  | cons v keys ih =>
      obtain ⟨hv, hkeys⟩ := List.forall_mem_cons.mp h
      -- neither part is longer on the left
      have hle : (keys.flatMap fun v => matchedRows (g v)).length ≤
          (keys.flatMap fun v => matchedRows (f v)).length := by
        rw [List.length_flatMap, List.length_flatMap]
        exact List.sum_le_sum fun w hw => length_matchedRows_le (hkeys w hw)
      rw [List.flatMap_cons, List.flatMap_cons, List.map_append, List.map_append,
        List.forall_mem_cons, ← ih hkeys]
      constructor
      · intro heq
        have hlen := congrArg List.length heq
        simp only [List.length_append, List.length_map] at hlen
        have hlv := length_matchedRows_le hv
        exact List.append_inj heq (by simp; omega)
      · rintro ⟨hhead, htail⟩
        rw [hhead, htail]

end

/-! ## Keys with the same text -/

/-- The rows of the other table whose key has the same text. -/
def sameText (otherKeys : List Value) (v : Value) : List ℕ :=
  rowsWith (otherKeys.map formatKey) (formatKey v)

/-- No key of the other table is confused with a different one: their texts are different, or
nothing of the row is seen, as it is the only one with this text and all its columns are
null. -/
def Apart (cols : List Column) (keptKeys otherKeys : List Value) : Prop :=
  ∀ v ∈ keptKeys, ∀ (j : ℕ) (w : Value), otherKeys[j]? = some w → formatKey w = formatKey v →
    w = v ∨ (∀ (k : ℕ) (u : Value), otherKeys[k]? = some u → formatKey u = formatKey v → k = j) ∧
      ∀ col ∈ cols, col.values[j]? = some (dtNull col.type)

section

variable {cols : List Column} {keptKeys otherKeys : List Value} {v : Value}

/-- What is seen of a row of the other table. -/
def look (cols : List Column) (o : Option ℕ) : List (Option Value) := cols.map (pick · o)

theorem mem_sameText {j : ℕ} :
    j ∈ sameText otherKeys v ↔ ∃ w, otherKeys[j]? = some w ∧ formatKey w = formatKey v := by
  rw [sameText, mem_rowsWith, List.getElem?_map, Option.map_eq_some_iff]

theorem rowsWith_sublist_sameText :
    (rowsWith otherKeys v).Sublist (sameText otherKeys v) := by
  unfold sameText rowsWith
  rw [List.length_map]
  refine List.monotone_filter_right _ fun i hi => ?_
  rw [decide_eq_true_iff] at hi ⊢
  rw [List.getElem?_map, hi, Option.map_some]

theorem map_matchedRows_eq_iff :
    (matchedRows (rowsWith otherKeys v)).map (look cols) =
        (matchedRows (sameText otherKeys v)).map (look cols) ↔
      ∀ j ∈ sameText otherKeys v, j ∈ rowsWith otherKeys v ∨
        sameText otherKeys v = [j] ∧ look cols none = look cols (some j) := by
  have hsub : (rowsWith otherKeys v).Sublist (sameText otherKeys v) := rowsWith_sublist_sameText
  have hnodup : (sameText otherKeys v).Nodup := nodup_rowsWith _ _
  generalize rowsWith otherKeys v = rows at hsub
  generalize sameText otherKeys v = rows' at hsub hnodup
  constructor
  · intro heq j hj
    refine or_iff_not_imp_left.mpr fun hnot => ?_
    have hlen : (matchedRows rows).length = (matchedRows rows').length := by
      simpa using congrArg List.length heq
    cases rows with
    | nil =>
        -- there is one row, and it looks like none
        cases rows' with
        | nil => simp at hj
        | cons r rows' =>
            obtain rfl : rows' = [] := by simpa [matchedRows, eq_comm] using hlen
            obtain rfl : j = r := by simpa using hj
            exact ⟨rfl, by simpa [matchedRows] using heq⟩
    | cons r rows =>
        cases rows' with
        | nil => simp at hj
        | cons r' rows' =>
            exact absurd hj (hsub.eq_of_length (by simpa [matchedRows] using hlen) ▸ hnot)
  · intro h
    by_cases hall : ∀ j ∈ rows', j ∈ rows
    · rw [hsub.eq_of_length_le (List.subperm_of_subset hnodup hall).length_le]
    · push Not at hall
      obtain ⟨j, hj, hnot⟩ := hall
      obtain ⟨hone, hlook⟩ := (h j hj).resolve_left hnot
      rw [hone] at hsub ⊢
      cases rows with
      | nil => simpa [matchedRows] using hlook
      | cons r rows =>
          have hr : r ∈ [j] := hsub.subset (by simp)
          exact absurd (by simp [List.mem_singleton.mp hr]) hnot

theorem look_none_eq_iff {j : ℕ} : look cols none = look cols (some j) ↔
    ∀ col ∈ cols, col.values[j]? = some (dtNull col.type) := by
  unfold look
  rw [List.map_inj_left]
  exact forall₂_congr fun _ _ => eq_comm

theorem apart_iff : Apart cols keptKeys otherKeys ↔
    ∀ v ∈ keptKeys, (matchedRows (rowsWith otherKeys v)).map (look cols) =
      (matchedRows (sameText otherKeys v)).map (look cols) := by
  refine forall₂_congr fun v _ => ?_
  have hone : ∀ j ∈ sameText otherKeys v, (sameText otherKeys v = [j] ↔
      ∀ (k : ℕ) (u : Value), otherKeys[k]? = some u → formatKey u = formatKey v → k = j) := by
    intro j hj
    constructor
    · intro heq k u hk hu
      have hmem : k ∈ sameText otherKeys v := mem_sameText.mpr ⟨u, hk, hu⟩
      rwa [heq, List.mem_singleton] at hmem
    · intro h
      refine List.perm_singleton.mp ((List.perm_ext_iff_of_nodup (nodup_rowsWith _ _)
        (List.nodup_singleton j)).mpr fun k => ?_)
      rw [List.mem_singleton]
      constructor
      · intro hk
        obtain ⟨u, hu, htext⟩ := mem_sameText.mp hk
        exact h k u hu htext
      · rintro rfl
        exact hj
  rw [map_matchedRows_eq_iff]
  constructor
  · intro h j hj
    obtain ⟨w, hw, htext⟩ := mem_sameText.mp hj
    rcases h j w hw htext with rfl | ⟨hunique, hnull⟩
    · exact Or.inl (mem_rowsWith.mpr hw)
    · exact Or.inr ⟨(hone j hj).mpr hunique, look_none_eq_iff.mpr hnull⟩
  · intro h j w hw htext
    have hj : j ∈ sameText otherKeys v := mem_sameText.mpr ⟨w, hw, htext⟩
    rcases h j hj with hmem | ⟨hunique, hnull⟩
    · exact Or.inl (Option.some.inj (hw.symm.trans (mem_rowsWith.mp hmem)))
    · exact Or.inr ⟨(hone j hj).mp hunique, look_none_eq_iff.mp hnull⟩

/-- Lists of rows look the same if every column does. -/
theorem map_look_eq_iff {xs ys : List (Option ℕ)} (hlen : xs.length = ys.length) :
    xs.map (look cols) = ys.map (look cols) ↔
      ∀ col ∈ cols, xs.map (pick col) = ys.map (pick col) := by
  induction xs generalizing ys with
  | nil =>
      cases ys with
      | nil => simp
      | cons y ys => simp at hlen
  | cons x xs ih =>
      cases ys with
      | nil => simp at hlen
      | cons y ys =>
          have htail : xs.map (look cols) = ys.map (look cols) ↔ _ := ih (by simpa using hlen)
          simp only [List.map_cons, List.cons.injEq, htail, look, List.map_inj_left]
          exact ⟨fun h col hcol => ⟨h.1 col hcol, h.2 col hcol⟩,
            fun h => ⟨fun col hcol => (h col hcol).1, fun col hcol => (h col hcol).2⟩⟩

end

/-! ## Relational joins -/

section

variable {names : List String} {sources : List (Side × Column)} {result : DataTable}

theorem allPicked_iff {perm perm' : Side → List (Option ℕ)} {columns : List Column}
    (h : AllPicked (sources.map fun s => (perm s.1, s.2)) columns) :
    AllPicked (sources.map fun s => (perm' s.1, s.2)) columns ↔
      ∀ s ∈ sources, (perm' s.1).map (pick s.2) = (perm s.1).map (pick s.2) := by
  rw [AllPicked, List.forall₂_map_left_iff] at h ⊢
  induction h with
  | nil => simp
  | cons hab _ ih =>
      rw [List.forall₂_cons, ih, List.forall_mem_cons]
      refine and_congr_left fun _ => ⟨fun h => ?_, fun h => ⟨hab.type, ?_⟩⟩
      · exact h.values.symm.trans hab.values
      · exact hab.values.trans h.symm

/-- The columns of the other table. -/
def matchedColumns (sources : List (Side × Column)) : List Column :=
  (sources.filter fun s => s.1 = .matched).map Prod.snd

theorem mem_matchedColumns {col : Column} :
    col ∈ matchedColumns sources ↔ (.matched, col) ∈ sources := by
  unfold matchedColumns
  simp

/-- **A join by the texts of the keys is the relational one** if and only if no keys are
confused. -/
theorem joinedBy_rowsWith_iff {keptKeys otherKeys : List Value}
    (h : JoinedBy names sources (joinRows (sameText otherKeys) keptKeys) result) :
    JoinedBy names sources (joinRows (rowsWith otherKeys) keptKeys) result ↔
      Apart (matchedColumns sources) keptKeys otherKeys := by
  have hsub : ∀ v ∈ keptKeys, (rowsWith otherKeys v).Sublist (sameText otherKeys v) :=
    fun _ _ => rowsWith_sublist_sameText
  rw [apart_iff]
  constructor
  · intro hexact
    have hmaps := (allPicked_iff h.columns).mp hexact.columns
    have hlen := hexact.numRows.symm.trans h.numRows
    rw [← map_flatMap_eq_iff hsub, ← perm_matched, ← perm_matched,
      map_look_eq_iff (by simpa using hlen)]
    exact fun col hcol => hmaps (.matched, col) (mem_matchedColumns.mp hcol)
  · intro happart
    have hlook := (map_flatMap_eq_iff hsub).mpr happart
    rw [← perm_matched, ← perm_matched] at hlook
    have hkept : Side.perm (joinRows (rowsWith otherKeys) keptKeys) .kept =
        Side.perm (joinRows (sameText otherKeys) keptKeys) .kept := by
      rw [perm_kept, perm_kept]
      refine List.flatMap_congr fun p hp => ?_
      have hlen := congrArg List.length (happart p.1 (List.fst_mem_of_mem_zipIdx hp))
      rw [List.length_map, List.length_map] at hlen
      rw [hlen]
    have hlen : (joinRows (rowsWith otherKeys) keptKeys).length =
        (joinRows (sameText otherKeys) keptKeys).length := by
      simpa using congrArg List.length hkept
    refine ⟨h.colNames, (allPicked_iff h.columns).mpr fun s hs => ?_, h.numRows.trans hlen.symm⟩
    obtain ⟨side, col⟩ := s
    cases side with
    | kept => rw [hkept]
    | matched =>
        exact (map_look_eq_iff (by simpa using hlen)).mp hlook col (mem_matchedColumns.mpr hs)

end

/-! ## Names -/

section

variable {names others : List String} {suffix : String}

theorem append_suffix_ne (hsuffix : suffix ≠ "") (name : String) : name ++ suffix ≠ name := by
  intro h
  rw [← @String.append_empty name, String.append_assoc, String.empty_append,
    String.append_right_inj] at h
  exact hsuffix h

/-- The names of the result are different if and only if no name with a suffix is taken. -/
theorem nodup_outNames_iff (hsuffix : suffix ≠ "") (hnames : names.Nodup) (hothers : others.Nodup) :
    (names ++ others.map (outName names suffix)).Nodup ↔
      ∀ name ∈ others, name ∈ names → name ++ suffix ∉ names ∧ name ++ suffix ∉ others := by
  have hin : ∀ name ∈ names, outName names suffix name = name ++ suffix := fun _ h => if_pos h
  have hout : ∀ name, name ∉ names → outName names suffix name = name := fun _ h => if_neg h
  rw [List.nodup_append', and_iff_right hnames]
  constructor
  · rintro ⟨hnodup, hdisjoint⟩ name hmem hin'
    have hfree : name ++ suffix ∉ names := fun h =>
      hdisjoint h (hin name hin' ▸ List.mem_map_of_mem hmem)
    refine ⟨hfree, fun h => ?_⟩
    -- the other name stays as it is
    have heq : outName names suffix (name ++ suffix) = outName names suffix name := by
      rw [hout _ hfree, hin _ hin']
    exact append_suffix_ne hsuffix name (List.inj_on_of_nodup_map hnodup h hmem heq)
  · intro h
    constructor
    · refine List.Nodup.map_on (fun a ha b hb hab => ?_) hothers
      by_cases hina : a ∈ names
      · rw [hin _ hina] at hab
        by_cases hinb : b ∈ names
        · rw [hin _ hinb] at hab
          exact (String.append_left_inj suffix).mp hab
        · rw [hout _ hinb] at hab
          exact absurd (hab ▸ hb) (h a ha hina).2
      · rw [hout _ hina] at hab
        by_cases hinb : b ∈ names
        · rw [hin _ hinb] at hab
          exact absurd (hab ▸ ha) (h b hb hinb).2
        · rwa [hout _ hinb] at hab
    · intro name hname hmem
      obtain ⟨other, hother, rfl⟩ := List.mem_map.mp hmem
      by_cases hin' : other ∈ names
      · rw [hin _ hin'] at hname
        exact (h other hother hin').1 hname
      · rw [hout _ hin'] at hname
        exact hin' hname

end

/-! ## Joins -/

/-- No column is an `IntColumn`. -/
def NoIntColumn (dt : DataTable) : Prop := ∀ col ∈ dt.columns, col.type ≠ .intcol

/-- A name that both tables have is not taken with the suffix. -/
def NoClash (kept other : DataTable) (onCol suffix : String) : Prop :=
  ∀ name ∈ other.colNames, name ≠ onCol → name ∈ kept.colNames →
    name ++ suffix ∉ kept.colNames ∧ name ++ suffix ∉ other.colNames

/-- The column of a name. -/
def Named (dt : DataTable) (name : String) (col : Column) : Prop :=
  ∃ ci : ℕ, dt.colNames[ci]? = some name ∧ dt.columns[ci]? = some col

section

variable {left right dt : DataTable} {onCol : String} {lc rc col : Column}

theorem Named.found (h : Named dt onCol col) (hsound : dt.Sound) :
    (∃ ci, dt.colIndex onCol = some ci) ∧ dt.getColumn onCol = .ok col ∧ onCol ∈ dt.colNames ∧
      col ∈ dt.columns ∧ col.values.length = dt.numRows := by
  obtain ⟨ci, hname, hcol⟩ := h
  have hci := (colIndex_eq_some_iff hsound).mpr hname
  have hmem := List.mem_of_getElem? hcol
  exact ⟨⟨ci, hci⟩, (getColumn_ok hci hcol).1, List.mem_of_getElem? hname, hmem,
    hsound.full col hmem⟩

theorem keys_ok (htype : col.type ≠ .intcol) : col.keys = .ok (col.values.map formatKey) := by
  cases col with
  | numeric t cells => rfl
  | string sc => rfl
  | intcol ic => exact absurd rfl htype

theorem joinRows_map {κ κ' : Type} (ht : κ' → List ℕ) (f : κ → κ') (keys : List κ) :
    joinRows ht (keys.map f) = joinRows (fun v => ht (f v)) keys := by
  rw [joinRows, List.zipIdx_map, List.flatMap_map]
  rfl

/-- Every row keeps a row, and has a row of its key. -/
theorem mem_joinRows {κ : Type} {f : κ → List ℕ} {keys : List κ} {p : ℕ × Option ℕ}
    (h : p ∈ joinRows f keys) :
    ∃ v, keys[p.1]? = some v ∧ ∀ ri, p.2 = some ri → ri ∈ f v := by
  obtain ⟨⟨v, i⟩, hv, hp⟩ := List.mem_flatMap.mp h
  obtain ⟨o, ho, rfl⟩ := List.mem_map.mp hp
  refine ⟨v, List.mem_zipIdx_iff_getElem?.mp hv, ?_⟩
  rintro ri rfl
  cases hrows : f v with
  | nil => simp [hrows, matchedRows] at ho
  | cons r rows => simpa [hrows, matchedRows] using ho

theorem joinRows_ne_nil {κ : Type} (f : κ → List ℕ) {keys : List κ} (h : keys ≠ []) :
    joinRows f keys ≠ [] := by
  obtain ⟨v, keys, rfl⟩ := List.exists_cons_of_ne_nil h
  have hpos := length_matchedRows_pos (f v)
  apply List.ne_nil_of_length_pos
  rw [joinRows, List.zipIdx_cons, List.flatMap_cons, List.length_append, List.length_map]
  exact Nat.add_pos_left hpos _

theorem mapM_ok_forall {α β : Type} {f : α → Except Fault β} {l : List α} {l' : List β}
    (h : l.mapM f = .ok l') : ∀ a ∈ l, ∃ b, f a = .ok b := by
  induction l generalizing l' with
  | nil => simp
  | cons a l ih =>
      rw [List.mapM_cons] at h
      obtain ⟨b, hb, h⟩ := bind_ok.mp h
      obtain ⟨bs, hbs, -⟩ := bind_ok.mp h
      exact List.forall_mem_cons.mpr ⟨⟨b, hb⟩, ih hbs⟩

/-- An `IntColumn` is not gathered. -/
theorem type_ne_of_joinGatherColumn {col' : Column} {perm : List (Option ℕ)}
    (h : joinGatherColumn perm col = .ok col') : col.type ≠ .intcol := by
  cases col with
  | numeric t cells => simp [Column.type]
  | string sc => simp [Column.type]
  | intcol ic => simp [joinGatherColumn] at h

theorem type_ne_of_gathered {cols cols' : List Column} {perm : List (Option ℕ)}
    (h : cols.mapM (joinGatherColumn perm) = .ok cols') : ∀ col ∈ cols, col.type ≠ .intcol := by
  intro col hcol
  obtain ⟨col', hcol'⟩ := mapM_ok_forall h col hcol
  exact type_ne_of_joinGatherColumn hcol'

/-- A column is the one that is joined on, or it is one of the others. -/
theorem eq_or_mem_otherColumns (hsound : dt.Sound) (hnamed : Named dt onCol col)
    {col' : Column} (h : col' ∈ dt.columns) :
    col' = col ∨ col' ∈ (otherColumns dt onCol).map Prod.snd := by
  obtain ⟨i, hi, hget⟩ := List.getElem_of_mem h
  have hi' : i < dt.colNames.length := hsound.named ▸ hi
  by_cases hname : dt.colNames[i] = onCol
  · left
    obtain ⟨ci, hci, hcol⟩ := hnamed
    obtain ⟨hlt, hci⟩ := List.getElem?_eq_some_iff.mp hci
    obtain rfl : i = ci := (hsound.distinct.getElem_inj_iff).mp (hname.trans hci.symm)
    rw [List.getElem?_eq_getElem hi, hget] at hcol
    exact Option.some.inj hcol
  · right
    refine List.mem_map.mpr ⟨(dt.colNames[i], col'), List.mem_filter.mpr ⟨?_, by simpa using hname⟩,
      rfl⟩
    apply List.mem_of_getElem? (i := i)
    rw [List.getElem?_zip_eq_some]
    exact ⟨List.getElem?_eq_getElem hi', hget ▸ List.getElem?_eq_getElem hi⟩

theorem map_fst_otherColumns (hsound : dt.Sound) :
    (otherColumns dt onCol).map Prod.fst = dt.colNames.filter (· ≠ onCol) := by
  calc (otherColumns dt onCol).map Prod.fst
      = ((dt.colNames.zip dt.columns).map Prod.fst).filter (· ≠ onCol) := by
        rw [List.filter_map]
        rfl
    _ = dt.colNames.filter (· ≠ onCol) := by
        rw [List.map_fst_zip hsound.named.le]

/-- The other names, with a suffix if they are taken. -/
theorem nodup_names_iff {kept other : DataTable} {suffix : String} (hsuffix : suffix ≠ "")
    (hkept : kept.Sound) (hother : other.Sound) (hon : onCol ∈ kept.colNames) :
    (kept.colNames ++ (otherColumns other onCol).map
        fun p => outName kept.colNames suffix p.1).Nodup ↔ NoClash kept other onCol suffix := by
  have hmap : (otherColumns other onCol).map (fun p => outName kept.colNames suffix p.1) =
      (other.colNames.filter (· ≠ onCol)).map (outName kept.colNames suffix) := by
    rw [← map_fst_otherColumns hother, List.map_map]
    rfl
  rw [hmap, nodup_outNames_iff hsuffix hkept.distinct (hother.distinct.filter _)]
  simp only [List.mem_filter, decide_eq_true_iff, not_and, not_not]
  constructor
  · intro h name hname hne hmem
    obtain ⟨hfree, hothers⟩ := h name ⟨hname, hne⟩ hmem
    exact ⟨hfree, fun hin => hfree ((hothers hin) ▸ hon)⟩
  · intro h name hname hmem
    obtain ⟨hfree, hothers⟩ := h name hname.1 hname.2 hmem
    exact ⟨hfree, fun hin => absurd hin hothers⟩

/-- The names of a join that keeps the rows of the right table. -/
def rightNames (left right : DataTable) (onCol : String) : List String :=
  (otherColumns left onCol).map (fun p => outName right.colNames ".left" p.1) ++
    onCol :: (otherColumns right onCol).map Prod.fst

/-- The columns of a join that keeps the rows of the right table. -/
def rightSources (left right : DataTable) (onCol : String) (rc : Column) :
    List (Side × Column) :=
  (otherColumns left onCol).map (fun p => (.matched, p.2)) ++
    (.kept, rc) :: (otherColumns right onCol).map fun p => (.kept, p.2)

/-- A join that keeps the rows of the right table. -/
abbrev JoinedRight (left right : DataTable) (onCol : String) (rc : Column)
    (rows : List (ℕ × Option ℕ)) (result : DataTable) : Prop :=
  JoinedBy (rightNames left right onCol) (rightSources left right onCol rc) rows result

theorem matchedColumns_left (left right : DataTable) (onCol : String) :
    matchedColumns (leftSources left right onCol) = (otherColumns right onCol).map Prod.snd := by
  simp [matchedColumns, leftSources, List.filter_append, List.filter_map, Function.comp_def]

theorem matchedColumns_right (left right : DataTable) (onCol : String) (rc : Column) :
    matchedColumns (rightSources left right onCol rc) =
      (otherColumns left onCol).map Prod.snd := by
  simp [matchedColumns, rightSources, List.filter_append, List.filter_map, Function.comp_def]

/-- The rows that a table is joined on, by the texts of the keys. -/
theorem joinRows_ok {kept other : DataTable} {kc oc : Column} (hkept : kept.Sound)
    (hother : other.Sound) (hk : Named kept onCol kc) (ho : Named other onCol oc)
    (hne : kept.numRows ≠ 0) (hotype : oc.type ≠ .intcol) :
    ∃ ht, joinBuildIndex other onCol = .ok ht ∧
      joinRows ht (kc.values.map formatKey) = joinRows (sameText oc.values) kc.values ∧
      joinRows (sameText oc.values) kc.values ≠ [] ∧
      ∀ p ∈ joinRows (sameText oc.values) kc.values, p.1 < kept.numRows ∧
        ∀ ri, p.2 = some ri → ri < other.numRows := by
  obtain ⟨-, -, -, -, hklen⟩ := hk.found hkept
  obtain ⟨-, hoget, -, -, holen⟩ := ho.found hother
  obtain ⟨ht, hht, hrows⟩ := joinBuildIndex_ok hoget hotype
  refine ⟨ht, hht, ?_, joinRows_ne_nil _ ?_, fun p hp => ?_⟩
  · rw [joinRows_map]
    simp only [hrows]
    rfl
  · rw [← List.length_pos_iff, hklen]
    exact Nat.pos_of_ne_zero hne
  · obtain ⟨v, hv, hri⟩ := mem_joinRows hp
    rw [← hklen, ← holen]
    refine ⟨(List.getElem?_eq_some_iff.mp hv).1, fun ri hp => ?_⟩
    obtain ⟨w, hw, -⟩ := mem_sameText.mp (hri ri hp)
    exact (List.getElem?_eq_some_iff.mp hw).1

theorem leftJoin_ok (hls : left.Sound) (hrs : right.Sound) (hl : Named left onCol lc)
    (hr : Named right onCol rc) (hne : left.numRows ≠ 0) (hlc : Copied left)
    (hrc : Copied right) :
    ∃ result, leftJoin left right onCol = .ok result ∧
      JoinedLeft left right onCol (joinRows (sameText rc.values) lc.values) result := by
  obtain ⟨⟨li, hli⟩, hlget, -, hlmem, -⟩ := hl.found hls
  obtain ⟨⟨ri, hri⟩, -, -, hrmem, -⟩ := hr.found hrs
  obtain ⟨ht, hht, hrows, hrne, hlt⟩ := joinRows_ok hls hrs hl hr hne (hrc _ hrmem).1
  obtain ⟨result, hresult, hjoined⟩ := assembleLeft_ok onCol hls hrs hlc hrc _ hrne
    (fun p hp => (hlt p hp).1) (fun p hp => (hlt p hp).2)
  refine ⟨result, ?_, hjoined⟩
  have hlen : nonempty (joinRows (sameText rc.values) lc.values).length = .ok () :=
    if_neg (by simpa using hrne)
  simp only [leftJoin, hli, hri, hht, hlget, keys_ok (hlc _ hlmem).1, hrows, hlen, Bind.bind,
    Except.bind]
  exact hresult

theorem rightJoin_ok (hls : left.Sound) (hrs : right.Sound) (hl : Named left onCol lc)
    (hr : Named right onCol rc) (hne : right.numRows ≠ 0) (hlc : Copied left)
    (hrc : Copied right) :
    ∃ result, rightJoin left right onCol = .ok result ∧
      JoinedRight left right onCol rc (joinRows (sameText lc.values) rc.values) result := by
  obtain ⟨⟨li, hli⟩, -, -, hlmem, -⟩ := hl.found hls
  obtain ⟨⟨ri, hri⟩, hrget, -, hrmem, -⟩ := hr.found hrs
  obtain ⟨ht, hht, hrows, hrne, hlt⟩ := joinRows_ok hrs hls hr hl hne (hlc _ hlmem).1
  generalize joinRows (sameText lc.values) rc.values = rows at hrows hrne hlt ⊢
  have hothers : ∀ dt : DataTable, (otherColumns dt onCol).map Prod.snd ⊆ dt.columns := by
    intro dt col hcol
    obtain ⟨p, hp, rfl⟩ := List.mem_map.mp hcol
    exact (mem_otherColumns hp).2.2
  have hkept : ∀ i, some i ∈ Side.perm rows .kept → i < right.numRows := by
    intro i hi
    obtain ⟨p, hp, hpi⟩ := List.mem_map.mp hi
    exact Option.some.inj hpi ▸ (hlt p hp).1
  have hmatched : ∀ i, some i ∈ Side.perm rows .matched → i < left.numRows := by
    intro i hi
    obtain ⟨p, hp, hpi⟩ := List.mem_map.mp hi
    exact (hlt p hp).2 i hpi
  obtain ⟨lCols, hlCols, hlall⟩ := gatherColumns_ok hls hlc (Side.perm rows .matched)
    (by simpa [Side.perm] using hrne) hmatched _ (hothers left)
  obtain ⟨rCols, hrCols, hrall⟩ := gatherColumns_ok hrs hrc (Side.perm rows .kept)
    (by simpa [Side.perm] using hrne) hkept _ (hothers right)
  obtain ⟨onData, honData, honpicked⟩ := joinGatherColumn_ok (hrc _ hrmem).1 (hrc _ hrmem).2
    (show Side.perm rows .kept ≠ [] by simpa [Side.perm] using hrne)
    (fun i hi => by
      rw [hrs.full _ hrmem]
      exact hkept i hi)
  refine ⟨⟨rightNames left right onCol, lCols ++ onData :: rCols, rows.length⟩, ?_, rfl, ?_, rfl⟩
  · have hlen : nonempty rows.length = .ok () := if_neg (by simpa using hrne)
    simp only [Side.perm] at hlCols hrCols honData
    simp only [rightJoin, hli, hri, hht, hrget, keys_ok (hrc _ hrmem).1, hrows, hlen, hlCols,
      hrCols, honData, rightNames, Bind.bind, Except.bind]
  · rw [List.map_map] at hlall hrall
    rw [rightSources, List.map_append, List.map_cons, List.map_map, List.map_map]
    exact List.rel_append hlall (.cons honpicked hrall)

/-! ## What the joins need -/

/-- An `IntColumn` in one of the tables is an error. -/
theorem not_intcol_of_leftJoin (hls : left.Sound) (hrs : right.Sound) (hl : Named left onCol lc)
    (hr : Named right onCol rc) (htype : lc.type = rc.type) {result : DataTable}
    (h : leftJoin left right onCol = .ok result) : NoIntColumn left ∧ NoIntColumn right := by
  obtain ⟨⟨li, hli⟩, -, -, hlmem, -⟩ := hl.found hls
  obtain ⟨⟨ri, hri⟩, -, -, hrmem, -⟩ := hr.found hrs
  simp only [leftJoin, hli, hri] at h
  obtain ⟨ht, -, h⟩ := bind_ok.mp h
  obtain ⟨_, -, h⟩ := bind_ok.mp h
  obtain ⟨keys, -, h⟩ := bind_ok.mp h
  obtain ⟨-, -, h⟩ := bind_ok.mp h
  obtain ⟨lCols, hlCols, h⟩ := bind_ok.mp h
  obtain ⟨rCols, hrCols, -⟩ := bind_ok.mp h
  have hleft := type_ne_of_gathered hlCols
  refine ⟨hleft, fun col hcol => ?_⟩
  rcases eq_or_mem_otherColumns hrs hr hcol with rfl | hother
  · exact htype ▸ hleft _ hlmem
  · exact type_ne_of_gathered hrCols col hother

theorem not_intcol_of_rightJoin (hls : left.Sound) (hrs : right.Sound) (hl : Named left onCol lc)
    (hr : Named right onCol rc) (htype : lc.type = rc.type) {result : DataTable}
    (h : rightJoin left right onCol = .ok result) : NoIntColumn left ∧ NoIntColumn right := by
  obtain ⟨⟨li, hli⟩, -, -, hlmem, -⟩ := hl.found hls
  obtain ⟨⟨ri, hri⟩, hrget, -, hrmem, -⟩ := hr.found hrs
  simp only [rightJoin, hli, hri] at h
  obtain ⟨ht, -, h⟩ := bind_ok.mp h
  obtain ⟨rCol, hrCol, h⟩ := bind_ok.mp h
  obtain rfl : rc = rCol := Except.ok.inj (hrget.symm.trans hrCol)
  obtain ⟨keys, -, h⟩ := bind_ok.mp h
  obtain ⟨-, -, h⟩ := bind_ok.mp h
  obtain ⟨lCols, hlCols, h⟩ := bind_ok.mp h
  obtain ⟨onData, honData, h⟩ := bind_ok.mp h
  obtain ⟨rCols, hrCols, -⟩ := bind_ok.mp h
  have hright := type_ne_of_joinGatherColumn honData
  constructor
  · intro col hcol
    rcases eq_or_mem_otherColumns hls hl hcol with rfl | hother
    · exact htype ▸ hright
    · exact type_ne_of_gathered hlCols col hother
  · intro col hcol
    rcases eq_or_mem_otherColumns hrs hr hcol with rfl | hother
    · exact hright
    · exact type_ne_of_gathered hrCols col hother

theorem nodup_rightNames_iff (hls : left.Sound) (hrs : right.Sound) (hr : Named right onCol rc) :
    (rightNames left right onCol).Nodup ↔ NoClash right left onCol ".left" := by
  obtain ⟨-, -, hon, -⟩ := hr.found hrs
  rw [← nodup_names_iff (by decide) hrs hls hon]
  refine List.Perm.nodup_iff ?_
  have hperm : (onCol :: (otherColumns right onCol).map Prod.fst).Perm right.colNames := by
    have herase : right.colNames.filter (· ≠ onCol) = right.colNames.erase onCol := by
      rw [hrs.distinct.erase_eq_filter]
      exact List.filter_congr fun name _ => by rw [Bool.eq_iff_iff]; simp
    rw [map_fst_otherColumns hrs, herase]
    exact (List.perm_cons_erase hon).symm
  exact List.perm_append_comm.trans (hperm.append_right _)

theorem copied_iff (dt : DataTable) (hexact : ∀ col ∈ dt.columns, col.Exact) :
    Copied dt ↔ NoIntColumn dt :=
  forall₂_congr fun col hcol => and_iff_left (hexact col hcol)

/-- `datatable-left-join` is the relational join. -/
def LeftRelational (left right : DataTable) (onCol : String) (lc rc : Column) : Prop :=
  ∃ result, leftJoin left right onCol = .ok result ∧
    JoinedLeft left right onCol (joinRows (rowsWith rc.values) lc.values) result ∧
    result.colNames.Nodup

/-- `datatable-right-join` is the relational join. -/
def RightRelational (left right : DataTable) (onCol : String) (lc rc : Column) : Prop :=
  ∃ result, rightJoin left right onCol = .ok result ∧
    JoinedRight left right onCol rc (joinRows (rowsWith lc.values) rc.values) result ∧
    result.colNames.Nodup

theorem leftRelational_iff (hls : left.Sound) (hrs : right.Sound) (hl : Named left onCol lc)
    (hr : Named right onCol rc) (htype : lc.type = rc.type) (hne : left.numRows ≠ 0)
    (hlx : ∀ col ∈ left.columns, col.Exact) (hrx : ∀ col ∈ right.columns, col.Exact) :
    LeftRelational left right onCol lc rc ↔ NoIntColumn left ∧ NoIntColumn right ∧
      Apart ((otherColumns right onCol).map Prod.snd) lc.values rc.values ∧
      NoClash left right onCol ".right" := by
  obtain ⟨-, -, hon, -⟩ := hl.found hls
  rw [← nodup_names_iff (by decide) hls hrs hon, ← matchedColumns_left left right]
  constructor
  · rintro ⟨result, hresult, hjoined, hnodup⟩
    obtain ⟨hlint, hrint⟩ := not_intcol_of_leftJoin hls hrs hl hr htype hresult
    obtain ⟨result', hresult', htext⟩ := leftJoin_ok hls hrs hl hr hne
      ((copied_iff left hlx).mpr hlint) ((copied_iff right hrx).mpr hrint)
    obtain rfl : result' = result := Except.ok.inj (hresult'.symm.trans hresult)
    rw [hjoined.colNames] at hnodup
    exact ⟨hlint, hrint, (joinedBy_rowsWith_iff htext).mp hjoined, hnodup⟩
  · rintro ⟨hlint, hrint, happart, hnodup⟩
    obtain ⟨result, hresult, htext⟩ := leftJoin_ok hls hrs hl hr hne
      ((copied_iff left hlx).mpr hlint) ((copied_iff right hrx).mpr hrint)
    refine ⟨result, hresult, (joinedBy_rowsWith_iff htext).mpr happart, ?_⟩
    rw [htext.colNames]
    exact hnodup

theorem rightRelational_iff (hls : left.Sound) (hrs : right.Sound) (hl : Named left onCol lc)
    (hr : Named right onCol rc) (htype : lc.type = rc.type) (hne : right.numRows ≠ 0)
    (hlx : ∀ col ∈ left.columns, col.Exact) (hrx : ∀ col ∈ right.columns, col.Exact) :
    RightRelational left right onCol lc rc ↔ NoIntColumn left ∧ NoIntColumn right ∧
      Apart ((otherColumns left onCol).map Prod.snd) rc.values lc.values ∧
      NoClash right left onCol ".left" := by
  rw [← nodup_rightNames_iff hls hrs hr, ← matchedColumns_right left right onCol rc]
  constructor
  · rintro ⟨result, hresult, hjoined, hnodup⟩
    obtain ⟨hlint, hrint⟩ := not_intcol_of_rightJoin hls hrs hl hr htype hresult
    obtain ⟨result', hresult', htext⟩ := rightJoin_ok hls hrs hl hr hne
      ((copied_iff left hlx).mpr hlint) ((copied_iff right hrx).mpr hrint)
    obtain rfl : result' = result := Except.ok.inj (hresult'.symm.trans hresult)
    rw [hjoined.colNames] at hnodup
    exact ⟨hlint, hrint, (joinedBy_rowsWith_iff htext).mp hjoined, hnodup⟩
  · rintro ⟨hlint, hrint, happart, hnodup⟩
    obtain ⟨result, hresult, htext⟩ := rightJoin_ok hls hrs hl hr hne
      ((copied_iff left hlx).mpr hlint) ((copied_iff right hrx).mpr hrint)
    refine ⟨result, hresult, (joinedBy_rowsWith_iff htext).mpr happart, ?_⟩
    rw [htext.colNames]
    exact hnodup

end

/-! ## Keys that print themselves -/

section

variable {cols : List Column}

/-- Two numbers of at most ten digits have different texts. -/
theorem formatKey_injOn {t : ColType} {x y : Cell t} (hx : x.Exact) (hy : y.Exact)
    (hx10 : x.toInt.natAbs ≤ 10 ^ 10) (hy10 : y.toInt.natAbs ≤ 10 ^ 10)
    (h : formatKey (.cell t x) = formatKey (.cell t y)) : x = y := by
  have hname : pnameNumber x.number = pnameNumber y.number := by
    cases t with
    | int => exact h
    | stamp => exact List.append_cancel_right h
  rw [show x.number = x.toInt from hx, show y.number = y.toInt from hy, pnameNumber, pnameNumber,
    Text.strNumber_ofInt hx10, Text.strNumber_ofInt hy10] at hname
  exact BitVec.eq_of_toInt_eq (Text.integerText_injective hname)

/-- Strings are not confused, and nor are numbers of at most ten digits. -/
theorem apart_string (sc sc' : Dictionary CString) :
    Apart cols (Column.string sc).values (Column.string sc').values := by
  intro v hv j w hw htext
  obtain ⟨s, -, rfl⟩ := List.mem_map.mp hv
  obtain ⟨s', -, rfl⟩ := List.mem_map.mp (List.mem_of_getElem? hw)
  exact Or.inl (congrArg Value.string (bytes_injective htext))

theorem apart_numeric {t : ColType} {cells cells' : List (Cell t)}
    (h : ∀ x ∈ cells ++ cells', x.Exact ∧ x.toInt.natAbs ≤ 10 ^ 10) :
    Apart cols (Column.numeric t cells).values (Column.numeric t cells').values := by
  intro v hv j w hw htext
  obtain ⟨x, hx, rfl⟩ := List.mem_map.mp hv
  obtain ⟨y, hy, rfl⟩ := List.mem_map.mp (List.mem_of_getElem? hw)
  obtain ⟨hxe, hx10⟩ := h x (List.mem_append_left _ hx)
  obtain ⟨hye, hy10⟩ := h y (List.mem_append_right _ hy)
  exact Or.inl (congrArg (Value.cell t) (formatKey_injOn hye hxe hy10 hx10 htext))

end

/-! ## The joins -/

/-- **When the joins are relational**: if and only if no column is an `IntColumn`, no keys
are confused and no name with a suffix is taken. -/
theorem joins_relational_iff (left right : Table) (onCol : String) (lc rc : Column)
    (hl : Named left.toDataTable onCol lc) (hr : Named right.toDataTable onCol rc)
    (htype : lc.type = rc.type) (hlne : left.numRows ≠ 0) (hrne : right.numRows ≠ 0)
    (hlx : ∀ col ∈ left.columns, col.Exact) (hrx : ∀ col ∈ right.columns, col.Exact) :
    (LeftRelational left.toDataTable right.toDataTable onCol lc rc ↔
      NoIntColumn left.toDataTable ∧ NoIntColumn right.toDataTable ∧
        Apart ((otherColumns right.toDataTable onCol).map Prod.snd) lc.values rc.values ∧
        NoClash left.toDataTable right.toDataTable onCol ".right") ∧
    (RightRelational left.toDataTable right.toDataTable onCol lc rc ↔
      NoIntColumn left.toDataTable ∧ NoIntColumn right.toDataTable ∧
        Apart ((otherColumns left.toDataTable onCol).map Prod.snd) rc.values lc.values ∧
        NoClash right.toDataTable left.toDataTable onCol ".left") :=
  ⟨leftRelational_iff left.sound right.sound hl hr htype hlne hlx hrx,
    rightRelational_iff left.sound right.sound hl hr htype hrne hlx hrx⟩

/-- A table of orders. -/
def orders : Table where
  colNames := ["id", "customer"]
  columns := [.numeric .int [10, 20], .numeric .int [1, 3]]
  numRows := 2
  sound := ⟨rfl, by decide, by simp [Column.values]⟩

/-- A table of customers, with an `IntColumn`. -/
def customers : Table where
  colNames := ["customer", "region"]
  columns := [.numeric .int [1, 2], .intcol (.ofRows [7, 7])]
  numRows := 2
  sound := ⟨rfl, by decide, by simp [Column.values]⟩

theorem joins_relational_iff_customers :
    (LeftRelational orders.toDataTable customers.toDataTable "customer" (.numeric .int [1, 3])
      (.numeric .int [1, 2]) ↔ NoIntColumn orders.toDataTable ∧ NoIntColumn customers.toDataTable ∧
        Apart [.intcol (.ofRows [7, 7])] (Column.numeric .int [1, 3]).values
          (Column.numeric .int [1, 2]).values ∧
        NoClash orders.toDataTable customers.toDataTable "customer" ".right") :=
  (joins_relational_iff orders customers "customer" (.numeric .int [1, 3]) (.numeric .int [1, 2])
    ⟨1, rfl, rfl⟩ ⟨0, rfl, rfl⟩ rfl (by decide) (by decide)
    (by simp [orders, Column.Exact, Datatable.Cell.exact_int])
    (by simp [customers, Column.Exact, Datatable.Cell.exact_int])).1

/-- The `IntColumn` is an error. -/
theorem not_relational_customers :
    ¬LeftRelational orders.toDataTable customers.toDataTable "customer" (.numeric .int [1, 3])
      (.numeric .int [1, 2]) := by
  rintro ⟨result, hresult, -⟩
  have hno := (not_intcol_of_leftJoin orders.sound customers.sound ⟨1, rfl, rfl⟩ ⟨0, rfl, rfl⟩
    rfl hresult).2
  exact hno (.intcol (.ofRows [7, 7])) (by simp [customers]) rfl

end Lush.Tables
