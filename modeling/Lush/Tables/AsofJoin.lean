import Lush.Tables.Joined

/-!
# The as-of join is exact

The right pointer never passes the last row that is admissible (`mergeScan_ok`): it stops
at the last one whose key is not above the left key, and both keys only grow.  Tables that
are not in order are sorted before, so every left row is in the result once, in the order of
the keys, with a right row as of its key (`asofJoin_exact`).
-/

namespace Lush.Tables

open Datatable (ColType)

/-! ## The scan -/

section

variable {rKeys : List ℤ} {lv : ℤ} {ri : ℕ}

/-- The row is the last one whose key is not above `lv`, if there is one. -/
def IsAsof (rKeys : List ℤ) (lv : ℤ) : Option ℕ → Prop
  | none => ∀ k ∈ rKeys, lv < k
  | some r => ∃ k, rKeys[r]? = some k ∧ k ≤ lv ∧ ∀ k' ∈ rKeys, k' ≤ lv → k' ≤ k

/-- The place of the pointer: the keys up to it are not above the left key, or it has not
moved; and the next key is above. -/
theorem advance_ok (hri : ri < rKeys.length) (hle : ri = 0 ∨ rKeys.getD ri 0 ≤ lv) :
    advance rKeys lv ri < rKeys.length ∧
      (advance rKeys lv ri = 0 ∨ rKeys.getD (advance rKeys lv ri) 0 ≤ lv) ∧
      (advance rKeys lv ri + 1 < rKeys.length → lv < rKeys.getD (advance rKeys lv ri + 1) 0) := by
  induction ri using advance.induct rKeys lv with
  | case1 ri h ih =>
      rw [advance, if_pos h]
      exact ih h.1 (Or.inr h.2)
  | case2 ri h =>
      rw [advance, if_neg h]
      exact ⟨hri, hle, fun hlt => not_le.mp fun hle => h ⟨hlt, hle⟩⟩

theorem isAsof_of_advance (hsorted : rKeys.Pairwise (· ≤ ·)) (hri : ri < rKeys.length)
    (hle : ri = 0 ∨ rKeys.getD ri 0 ≤ lv)
    (hnext : ri + 1 < rKeys.length → lv < rKeys.getD (ri + 1) 0) :
    IsAsof rKeys lv (if rKeys.getD ri 0 ≤ lv then some ri else none) := by
  have hmono : ∀ i j, i ≤ j → j < rKeys.length → rKeys.getD i 0 ≤ rKeys.getD j 0 := by
    intro i j hij hj
    rw [List.getD_eq_getElem _ _ (hij.trans_lt hj), List.getD_eq_getElem _ _ hj]
    exact hsorted.sortedLE.monotone_get (a := ⟨i, _⟩) (b := ⟨j, _⟩) hij
  split_ifs with h
  · refine ⟨rKeys[ri], List.getElem?_eq_getElem hri, by simpa [hri] using h, fun k hk hkle => ?_⟩
    obtain ⟨i, hi, rfl⟩ := List.getElem_of_mem hk
    by_cases hir : i ≤ ri
    · simpa [hi, hri] using hmono i ri hir hri
    · have hlt := hnext (by omega)
      have hge := hmono (ri + 1) i (by omega) hi
      rw [List.getD_eq_getElem _ _ hi] at hge
      omega
  · intro k hk
    obtain ⟨i, hi, rfl⟩ := List.getElem_of_mem hk
    obtain rfl : ri = 0 := hle.resolve_right h
    have hge := hmono 0 i (Nat.zero_le i) hi
    rw [List.getD_eq_getElem _ _ hi] at hge
    omega

/-- **The scan** finds the row of every left key. -/
theorem mergeScan_ok (hsorted : rKeys.Pairwise (· ≤ ·)) (hri : ri < rKeys.length)
    {lKeys : List ℤ} (hlsorted : lKeys.Pairwise (· ≤ ·)) (hle : ri = 0 ∨ ∀ lv ∈ lKeys, rKeys.getD ri 0 ≤ lv) :
    List.Forall₂ (IsAsof rKeys) lKeys (mergeScan rKeys ri lKeys) := by
  induction lKeys generalizing ri with
  | nil => exact .nil
  | cons lv lKeys ih =>
      obtain ⟨hlv, hrest⟩ := List.pairwise_cons.mp hlsorted
      obtain ⟨hlt, hplace, hnext⟩ := advance_ok hri
        (hle.imp_right fun h => h lv (List.mem_cons_self ..))
      refine .cons (isAsof_of_advance hsorted hlt hplace hnext) (ih hlt hrest ?_)
      exact hplace.imp_right fun h lv' hlv' => h.trans (hlv lv' hlv')

end

/-! ## Rows of ordered tables -/

section

variable {t : ColType} {cells : List (Cell t)} {perm : List ℕ} {dt dt' : DataTable}
  {name : String}

theorem inOrder_ok (hsound : dt.Sound) (hkey : KeyColumn dt name cells) :
    ∃ dt' perm, inOrder dt name = .ok dt' ∧ Ordered cells perm dt dt' := by
  obtain ⟨b, hb, hsorted⟩ := sorted_ok hsound hkey
  simp only [inOrder, hb, Bind.bind, Except.bind]
  cases b with
  | true => exact ⟨dt, _, rfl, .refl hsound hkey (hsorted rfl)⟩
  | false => exact sortBy_ok hsound hkey

theorem KeyColumn.exact (hkey : KeyColumn dt name cells) (hcopied : Copied dt) :
    ∀ x ∈ cells, x.Exact := by
  obtain ⟨ci, -, hcol⟩ := hkey
  exact (hcopied _ (List.mem_of_getElem? hcol)).2

/-- The keys of the ordered rows. -/
theorem Ordered.keys (h : Ordered cells perm dt dt') (hkey : KeyColumn dt name cells)
    (hexact : ∀ x ∈ cells, x.Exact) :
    ∃ cells' : List (Cell t), KeyColumn dt' name cells' ∧
      cells'.map Datatable.Cell.number = perm.map (keyAt cells) := by
  obtain ⟨cells', hkey', hcells⟩ := h.selected.keyColumn hkey
  refine ⟨cells', hkey', ?_⟩
  have hlen : cells'.length = perm.length := by simpa using congrArg List.length hcells
  apply List.ext_getElem
  · simpa using hlen
  · intro i hi hi'
    have hlt : i < cells'.length := by simpa using hi
    have hlt' : i < perm.length := by simpa using hi'
    have hget : some cells'[i] = cells[perm[i]]? := by
      simpa [hlt, hlt'] using congrArg (·[i]?) hcells
    rw [List.getElem_map, List.getElem_map, keyAt, List.getD_eq_getElem?_getD, ← hget]
    exact hexact _ (List.mem_of_getElem? hget.symm)

/-- A row as of a key, in a table that was ordered. -/
theorem IsAsof.ordered (h : Ordered cells perm dt dt') (hlen : cells.length = dt.numRows)
    {lv : ℤ} {o : Option ℕ} (has : IsAsof (perm.map (keyAt cells)) lv o) :
    IsAsof (cells.map BitVec.toInt) lv (o.map (perm.getD · 0)) := by
  -- the keys are the same, in another order
  have hmem : ∀ k, k ∈ perm.map (keyAt cells) ↔ k ∈ cells.map BitVec.toInt := by
    intro k
    rw [← map_keyAt_range, hlen]
    exact (h.all.map _).mem_iff
  cases o with
  | none => exact fun k hk => has k ((hmem k).mpr hk)
  | some r =>
      obtain ⟨k, hget, hle, hmax⟩ := has
      refine ⟨k, ?_, hle, fun k' hk' hle' => hmax k' ((hmem k').mpr hk') hle'⟩
      rw [List.getElem?_map, Option.map_eq_some_iff] at hget
      obtain ⟨i, hi, rfl⟩ := hget
      have hlt : i < cells.length := by
        rw [hlen]
        exact List.mem_range.mp (h.all.mem_iff.mp (List.mem_of_getElem? hi))
      simp [List.getD_eq_getElem?_getD, hi, keyAt, hlt]

end

/-! ## The join -/

section

variable {t : ColType} {left right sl sr : DataTable} {onCol : String}
  {lCells rCells : List (Cell t)} {permL permR : List ℕ}

/-- The rows of a source that are rows of another source. -/
def Through (a b : List (Option ℕ) × Column) : Prop :=
  ∃ q : List ℕ, Picked (q.map some) a.2 b.2 ∧ a.1 = b.1.map (Option.map (q.getD · 0)) ∧
    ∀ i, some i ∈ b.1 → i < q.length

theorem AllPicked.through {sources sources' : List (List (Option ℕ) × Column)}
    {columns : List Column} (h : List.Forall₂ Through sources sources')
    (hall : AllPicked sources' columns) : AllPicked sources columns := by
  induction h generalizing columns with
  | nil => exact hall
  | cons hab _ ih =>
      cases hall with
      | cons hpicked hall =>
          obtain ⟨q, hq, hperm, hlt⟩ := hab
          refine .cons ?_ (ih hall)
          rw [hperm]
          exact hq.trans hpicked hlt

theorem map_getD_range (l : List ℕ) : (List.range l.length).map (l.getD · 0) = l := by
  apply List.ext_getElem
  · simp
  · intro i hi hi'
    simp [hi']

theorem map_zip_left {α : Type} (f : ℕ → α) {l : List ℕ} {o : List (Option ℕ)}
    (h : l.length ≤ o.length) : (l.zip o).map (fun p => f p.1) = l.map f := by
  calc (l.zip o).map (fun p => f p.1)
      = ((l.zip o).map Prod.fst).map f := by rw [List.map_map]; rfl
    _ = l.map f := by rw [List.map_fst_zip h]

/-- The rows of tables that were ordered, as rows of the tables themselves. -/
theorem JoinedLeft.ordered (hl : Ordered lCells permL left sl) (hr : Ordered rCells permR right sr)
    {o : List (Option ℕ)} (hlen : o.length = permL.length)
    (ho : ∀ ri, some ri ∈ o → ri < permR.length) {result : DataTable}
    (h : JoinedLeft sl sr onCol ((List.range permL.length).zip o) result) :
    JoinedLeft left right onCol (permL.zip (o.map (Option.map (permR.getD · 0)))) result := by
  have hothers := otherColumns_forall₂ onCol hr.selected.colNames hr.selected.columns
  have hfst : Side.perm ((List.range permL.length).zip o) .kept =
      (List.range permL.length).map some := map_zip_left some (by simp [hlen])
  have hsnd : Side.perm ((List.range permL.length).zip o) .matched = o :=
    List.map_snd_zip (by simp [hlen])
  have hfst' : Side.perm (permL.zip (o.map (Option.map (permR.getD · 0)))) .kept =
      ((List.range permL.length).map some).map (Option.map (permL.getD · 0)) := by
    calc (permL.zip (o.map (Option.map (permR.getD · 0)))).map (fun p => some p.1)
        = permL.map some := map_zip_left some (by simp [hlen])
      _ = ((List.range permL.length).map (permL.getD · 0)).map some := by rw [map_getD_range]
      _ = _ := by rw [List.map_map, List.map_map]; rfl
  have hsnd' : Side.perm (permL.zip (o.map (Option.map (permR.getD · 0)))) .matched =
      o.map (Option.map (permR.getD · 0)) := List.map_snd_zip (by simp [hlen])
  refine ⟨?_, ?_, ?_⟩
  · have hnames : (otherColumns sr onCol).map (fun p => outName left.colNames ".right" p.1) =
        (otherColumns right onCol).map fun p => outName left.colNames ".right" p.1 := by
      rw [← List.forall₂_eq_eq_eq, List.forall₂_map_left_iff, List.forall₂_map_right_iff]
      exact hothers.flip.imp fun _ _ hpq => by rw [hpq.1]
    rw [h.colNames, leftNames, leftNames, hl.selected.colNames, hnames]
  · have hcolumns := h.columns
    rw [map_leftSources] at hcolumns ⊢
    refine AllPicked.through (List.rel_append ?_ ?_) hcolumns
    · rw [List.forall₂_map_left_iff, List.forall₂_map_right_iff]
      refine hl.selected.columns.imp fun _ _ hpicked => ⟨permL, hpicked, ?_, fun i hi => ?_⟩
      · show Side.perm _ .kept = (Side.perm _ .kept).map _
        rw [hfst, hfst']
      · have hmem : some i ∈ Side.perm ((List.range permL.length).zip o) .kept := hi
        rw [hfst] at hmem
        simpa using hmem
    · rw [List.forall₂_map_left_iff, List.forall₂_map_right_iff]
      refine hothers.imp fun _ _ hpq => ⟨permR, hpq.2, ?_, fun i hi => ?_⟩
      · show Side.perm _ .matched = (Side.perm _ .matched).map _
        rw [hsnd, hsnd']
      · have hmem : some i ∈ Side.perm ((List.range permL.length).zip o) .matched := hi
        rw [hsnd] at hmem
        exact ho i hmem
  · rw [h.numRows]
    simp [hlen]

/-- **The as-of join is exact.**  It has every left row once, in the order of the keys, and
with it a right row as of the key. -/
theorem asofJoin_exact (left right : Table) (onCol : String)
    (hlkey : KeyColumn left.toDataTable onCol lCells)
    (hrkey : KeyColumn right.toDataTable onCol rCells)
    (hlne : left.numRows ≠ 0) (hrne : right.numRows ≠ 0)
    (hlc : Copied left.toDataTable) (hrc : Copied right.toDataTable) :
    ∃ result rows, asofJoin left.toDataTable right.toDataTable onCol = .ok result ∧
      JoinedLeft left.toDataTable right.toDataTable onCol rows result ∧
      (rows.map Prod.fst).Perm (List.range left.numRows) ∧
      (rows.map fun p => keyAt lCells p.1).Pairwise (· ≤ ·) ∧
      ∀ p ∈ rows, IsAsof (rCells.map BitVec.toInt) (keyAt lCells p.1) p.2 := by
  obtain ⟨sl, permL, hsl, hordL⟩ := inOrder_ok left.sound hlkey
  obtain ⟨sr, permR, hsr, hordR⟩ := inOrder_ok right.sound hrkey
  have hsoundL := hordL.selected.sound left.sound
  have hsoundR := hordR.selected.sound right.sound
  obtain ⟨lCells', hlkey', hlkeys⟩ := hordL.keys hlkey (hlkey.exact hlc)
  obtain ⟨rCells', hrkey', hrkeys⟩ := hordR.keys hrkey (hrkey.exact hrc)
  have hpermL : permL.length = left.numRows := by simpa using hordL.all.length_eq
  have hpermR : permR.length = right.numRows := by simpa using hordR.all.length_eq
  have hscan := mergeScan_ok hordR.sorted
    (by simpa [hpermR] using Nat.pos_of_ne_zero hrne) hordL.sorted (Or.inl rfl)
  generalize hscaneq : mergeScan (permR.map (keyAt rCells)) 0 (permL.map (keyAt lCells)) = o at hscan
  have hlen : o.length = permL.length := by simpa using hscan.length_eq.symm
  have ho : ∀ ri, some ri ∈ o → ri < permR.length := by
    intro ri hri
    obtain ⟨i, hi, hget⟩ := List.getElem_of_mem hri
    obtain ⟨hlen', hall⟩ := List.forall₂_iff_get.mp hscan
    have has := hall i (hlen' ▸ hi) hi
    rw [List.get_eq_getElem, List.get_eq_getElem, hget] at has
    obtain ⟨k, hk, -⟩ := has
    simpa using (List.getElem?_eq_some_iff.mp hk).1
  obtain ⟨result, hresult, hjoined⟩ := assembleLeft_ok onCol hsoundL hsoundR
    (hordL.selected.copied hlc) (hordR.selected.copied hrc)
    ((List.range permL.length).zip o)
    (by
      apply List.ne_nil_of_length_pos
      simp [hlen, hpermL, Nat.pos_of_ne_zero hlne])
    (fun p hp => by
      have hmem := (List.of_mem_zip (a := p.1) (b := p.2) hp).1
      rwa [List.mem_range, ← hordL.selected.numRows] at hmem)
    (fun p hp ri hri => by
      have hmem := (List.of_mem_zip (a := p.1) (b := p.2) hp).2
      rw [hri] at hmem
      rw [hordR.selected.numRows]
      exact ho ri hmem)
  refine ⟨result, _, ?_, hjoined.ordered hordL hordR hlen ho, ?_, ?_, ?_⟩
  · obtain ⟨-, hltype, -⟩ := hlkey.found left.sound
    obtain ⟨-, hrtype, -⟩ := hrkey.found right.sound
    obtain ⟨hlget, -⟩ := hlkey'.found hsoundL
    obtain ⟨hrget, -⟩ := hrkey'.found hsoundR
    have hl0 : nonempty sl.numRows = .ok () := if_neg (by
      rw [hordL.selected.numRows, hpermL]
      exact hlne)
    have hr0 : sr.numRows ≠ 0 := by
      rw [hordR.selected.numRows, hpermR]
      exact hrne
    rw [map_zip_left some (by simp [hlen]), List.map_snd_zip (by simp [hlen]),
      ← hordL.selected.numRows] at hresult
    simp only [asofJoin, hltype, hrtype, hsl, hsr, hlget, hrget, hl0, Bind.bind, Except.bind]
    rw [if_neg (by simp), if_neg hr0]
    simp only [Column.numbers, hlkeys, hrkeys, hscaneq]
    exact hresult
  · rw [List.map_fst_zip (by simp [hlen])]
    exact hordL.all
  · rw [map_zip_left (keyAt lCells) (by simp [hlen])]
    exact hordL.sorted
  · have hall : List.Forall₂ (fun i p => IsAsof (rCells.map BitVec.toInt) (keyAt lCells i) p)
        permL (o.map (Option.map (permR.getD · 0))) := by
      rw [List.forall₂_map_left_iff] at hscan
      rw [List.forall₂_map_right_iff]
      exact hscan.imp fun _ _ has => has.ordered hordR (hrkey.found right.sound).2.2.2
    exact fun p hp => (List.forall₂_iff_zip.mp hall).2 hp

/-- Two trades, the later one first. -/
def trades : Table where
  colNames := ["time", "size"]
  columns := [.numeric .int [3, 1], .numeric .int [10, 20]]
  numRows := 2
  sound := ⟨rfl, by decide, by simp [Column.values]⟩

/-- One quote. -/
def quotes : Table where
  colNames := ["price", "time"]
  columns := [.numeric .int [100], .numeric .int [2]]
  numRows := 1
  sound := ⟨rfl, by decide, by simp [Column.values]⟩

theorem asofJoin_exact_trades :
    ∃ result rows, asofJoin trades.toDataTable quotes.toDataTable "time" = .ok result ∧
      JoinedLeft trades.toDataTable quotes.toDataTable "time" rows result ∧
      (rows.map Prod.fst).Perm [0, 1] ∧ (rows.map fun p => keyAt (t := .int) [3, 1] p.1).Pairwise
        (· ≤ ·) ∧ ∀ p ∈ rows, IsAsof [2] (keyAt (t := .int) [3, 1] p.1) p.2 :=
  asofJoin_exact (t := .int) trades quotes "time" ⟨0, rfl, rfl⟩ ⟨1, rfl, rfl⟩ (by decide) (by decide)
    (by simp [Copied, trades, Column.type, Column.Exact, Datatable.Cell.exact_int])
    (by simp [Copied, quotes, Column.type, Column.Exact, Datatable.Cell.exact_int])

end

end Lush.Tables
