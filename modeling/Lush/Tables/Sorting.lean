import Lush.Tables.Table

/-!
# Tables in order

`grade` finds the rows in the order of a column, and `sort-by` chooses them so
(`sortBy_ok`).  A table that is in order already has its rows in their own order
(`Ordered.refl`).
-/

namespace Lush.Tables

open Datatable (ColType checked i1sortedp l1sortedp)

variable {t : ColType} {cells : List (Cell t)} {n : ℕ} {dt dt' : DataTable} {name : String}

/-! ## Sorted rows -/

/-- The cell of a row, as an integer. -/
def keyAt {t : ColType} (cells : List (Cell t)) (i : ℕ) : ℤ := (cells.getD i 0).toInt

/-- **The rows of a heapsort** are all rows, in the order of their keys. -/
theorem heapsort_rows {κ : Type} [LinearOrder κ] (e : ℤ → κ) (cells : List (Cell t)) (n : ℕ) :
    let perm := (List.range n).map fun i =>
      (Heapsort.heapsort (fun p : Cell t × ℕ => e p.1.toInt) n (DataTable.keyed cells) i).2
    perm.Perm (List.range n) ∧ (perm.map fun i => e (keyAt cells i)).Pairwise (· ≤ ·) := by
  intro perm
  obtain ⟨hsorted, hperm⟩ := Heapsort.heapsort_sorted (fun p : Cell t × ℕ => e p.1.toInt) n
    (DataTable.keyed cells)
  constructor
  · have hsnd := hperm.perm.map Prod.snd
    rw [List.map_map, List.map_map] at hsnd
    have hid : (List.range n).map (Prod.snd ∘ DataTable.keyed cells) = List.range n := by
      simp [Function.comp_def, DataTable.keyed]
    rwa [hid] at hsnd
  · -- every element is still with its row
    have hkey : ∀ i < n, e (keyAt cells
        (Heapsort.heapsort (fun p : Cell t × ℕ => e p.1.toInt) n (DataTable.keyed cells) i).2) =
        e (Heapsort.heapsort (fun p : Cell t × ℕ => e p.1.toInt) n
          (DataTable.keyed cells) i).1.toInt := by
      intro i hi
      obtain ⟨k, -, hk⟩ := hperm.exists_lt hi
      rw [hk]
      rfl
    rw [List.map_map, List.pairwise_map]
    refine List.pairwise_lt_range.imp_of_mem fun {i j} hi hj hij => ?_
    rw [List.mem_range] at hi hj
    show e (keyAt cells _) ≤ e (keyAt cells _)
    rw [hkey i hi, hkey j hj]
    exact hsorted i j hij.le hj

theorem sortup_rows (cells : List (Cell t)) (n : ℕ) :
    (DataTable.sortup cells n).Perm (List.range n) ∧
      ((DataTable.sortup cells n).map (keyAt cells)).Pairwise (· ≤ ·) :=
  heapsort_rows id cells n

theorem sortdown_rows (cells : List (Cell t)) (n : ℕ) :
    (DataTable.sortdown cells n).Perm (List.range n) ∧
      ((DataTable.sortdown cells n).map (keyAt cells)).Pairwise (· ≥ ·) := by
  obtain ⟨hperm, hsorted⟩ := heapsort_rows OrderDual.toDual cells n
  refine ⟨hperm, ?_⟩
  rw [List.pairwise_map] at hsorted ⊢
  exact hsorted.imp fun h => OrderDual.toDual_le_toDual.mp h

/-! ## Tables -/

/-- A table has a column of numbers of this name. -/
def KeyColumn (dt : DataTable) (name : String) (cells : List (Cell t)) : Prop :=
  ∃ ci : ℕ, dt.colNames[ci]? = some name ∧ dt.columns[ci]? = some (Column.numeric t cells)

theorem KeyColumn.found (h : KeyColumn dt name cells) (hsound : dt.Sound) :
    dt.getColumn name = .ok (.numeric t cells) ∧ dt.colType name = .ok (.numeric t) ∧
      DataTable.nth (dt.colIndex name) dt.columns = .ok (.numeric t cells) ∧
      cells.length = dt.numRows := by
  obtain ⟨ci, hname, hcol⟩ := h
  obtain ⟨hget, htype, hnth⟩ := getColumn_ok ((colIndex_eq_some_iff hsound).mpr hname) hcol
  refine ⟨hget, htype, hnth, ?_⟩
  simpa [Column.values] using hsound.full _ (List.mem_of_getElem? hcol)

/-- All rows, in the order of a column. -/
structure Ordered (cells : List (Cell t)) (perm : List ℕ) (dt dt' : DataTable) : Prop where
  selected : Selected perm dt dt'
  all : perm.Perm (List.range dt.numRows)
  sorted : (perm.map (keyAt cells)).Pairwise (· ≤ ·)

theorem picked_refl (col : Column) :
    Picked ((List.range col.values.length).map some) col col where
  type := rfl
  values := by
    apply List.ext_getElem
    · simp
    · intro i hi hi'
      have hlt : i < col.values.length := by simpa using hi
      simp [pick, hlt]

theorem map_keyAt_range (cells : List (Cell t)) :
    (List.range cells.length).map (keyAt cells) = cells.map BitVec.toInt := by
  apply List.ext_getElem
  · simp
  · intro i hi hi'
    have hlt : i < cells.length := by simpa using hi
    simp [keyAt, hlt]

/-- A table that is in order already. -/
theorem Ordered.refl (hsound : dt.Sound) (hkey : KeyColumn dt name cells)
    (h : Datatable.InOrder cells) : Ordered cells (List.range dt.numRows) dt dt where
  selected := ⟨rfl, List.forall₂_same.mpr fun col hcol => by
    have hpicked := picked_refl col
    rwa [hsound.full col hcol] at hpicked, by simp⟩
  all := .refl _
  sorted := by
    rw [← (hkey.found hsound).2.2.2, map_keyAt_range]
    exact h

/-- **`sort-by`.** -/
theorem sortBy_ok (hsound : dt.Sound) (hkey : KeyColumn dt name cells) :
    ∃ dt' perm, dt.sortBy name false = .ok dt' ∧ Ordered cells perm dt dt' := by
  unfold DataTable.sortBy
  by_cases h0 : dt.numRows = 0
  · rw [if_pos h0]
    exact ⟨_, [], rfl, schema_selected dt, by rw [h0]; exact .nil, .nil⟩
  rw [if_neg h0]
  obtain ⟨perm, hgrade, hperm, hsorted⟩ : ∃ perm, dt.grade name false = .ok perm ∧
      perm.Perm (List.range dt.numRows) ∧ (perm.map (keyAt cells)).Pairwise (· ≤ ·) := by
    simp only [DataTable.grade, (hkey.found hsound).2.2.1, Bind.bind, Except.bind]
    by_cases h1 : dt.numRows ≤ 1
    · rw [if_pos h1]
      obtain h1 : dt.numRows = 1 := by omega
      exact ⟨[0], rfl, by rw [h1]; exact .refl _, List.pairwise_singleton _ _⟩
    · rw [if_neg h1]
      obtain ⟨hperm, hsorted⟩ := sortup_rows cells dt.numRows
      exact ⟨_, rfl, hperm, hsorted⟩
  obtain ⟨dt', hdt', hselected⟩ := selectRowsIdx_ok hsound perm fun i hi =>
    List.mem_range.mp (hperm.mem_iff.mp hi)
  refine ⟨dt', perm, ?_, hselected, hperm, hsorted⟩
  rw [hgrade]
  exact hdt'

/-- What the test of `datatable-sorted?` says. -/
theorem sorted_ok (hsound : dt.Sound) (hkey : KeyColumn dt name cells) :
    ∃ b, dt.sorted name = .ok b ∧ (b = true → Datatable.InOrder cells) := by
  obtain ⟨hget, htype, -, hlen⟩ := hkey.found hsound
  simp only [DataTable.sorted, htype, hget, Bind.bind, Except.bind]
  rw [if_neg (by simp)]
  by_cases h1 : dt.numRows ≤ 1
  · rw [if_pos h1]
    refine ⟨true, rfl, fun _ => ?_⟩
    rw [← hlen] at h1
    rcases cells with _ | ⟨x, _ | ⟨y, cells⟩⟩
    · exact .nil
    · exact List.pairwise_singleton _ _
    · simp at h1
  · rw [if_neg h1]
    have htake : cells.take dt.numRows = cells := List.take_of_length_le hlen.le
    cases t with
    | int =>
        simp only [htake]
        exact ⟨_, rfl, fun h => Datatable.i1sortedp_iff.mp h⟩
    | stamp =>
        simp only [htake]
        exact ⟨_, rfl, fun h => Datatable.inOrder_of_sortedp (t := .stamp) h⟩

/-! ## Columns of chosen rows -/

/-- A column of numbers is chosen from a column of numbers. -/
theorem Picked.numeric {perm : List (Option ℕ)} {col' : Column}
    (h : Picked perm (.numeric t cells) col') : ∃ cells', col' = .numeric t cells' := by
  have htype := h.type
  cases col' with
  | numeric t' cells' =>
      obtain rfl : t' = t := by simpa [Column.type] using htype
      exact ⟨cells', rfl⟩
  | string sc => simp [Column.type] at htype
  | intcol ic => simp [Column.type] at htype

/-- The cells of the chosen rows. -/
theorem Picked.cells_eq {perm : List ℕ} {cells' : List (Cell t)}
    (h : Picked (perm.map some) (.numeric t cells) (.numeric t cells')) :
    cells'.map some = perm.map (cells[·]?) := by
  have hvalues := h.values
  rw [List.map_map] at hvalues
  have hinj : Function.Injective (Option.map (Value.cell t)) :=
    Option.map_injective fun x y hxy => by simpa using hxy
  apply List.map_injective_iff.mpr hinj
  simpa [Column.values, pick, Function.comp_def] using hvalues

/-- The keys of the chosen rows. -/
theorem Selected.keyColumn {perm : List ℕ} (h : Selected perm dt dt')
    (hkey : KeyColumn dt name cells) :
    ∃ cells' : List (Cell t), KeyColumn dt' name cells' ∧
      cells'.map some = perm.map (cells[·]?) := by
  obtain ⟨ci, hname, hcol⟩ := hkey
  obtain ⟨hlen, hall⟩ := List.forall₂_iff_get.mp h.columns
  obtain ⟨hi, hget⟩ := List.getElem?_eq_some_iff.mp hcol
  have hpicked := hall ci hi (hlen ▸ hi)
  simp only [List.get_eq_getElem, hget] at hpicked
  obtain ⟨cells', hcells⟩ := hpicked.numeric
  rw [hcells] at hpicked
  refine ⟨cells', ⟨ci, h.colNames ▸ hname, ?_⟩, hpicked.cells_eq⟩
  rw [List.getElem?_eq_getElem (hlen ▸ hi), hcells]

end Lush.Tables
