import Lush.Tables.EquiJoin
import Lush.Tables.GroupBy

/-!
# When groups are a partition

What `datatable-group-by` should give is one row for each value of the key, with a number
that comes from the values of its rows that are not null (`Partition`).  With an index it
does so if and only if no sum leaves the range of an `int` (`indexed_partition_iff`).  With a
hash table it counts null values too, and keys with the same text are one group.
-/

namespace Lush.Tables

open Datatable (ColType StringColumn numberOf)
open Datatable.StringColumn (rowsWith)

/-! ## What groups are -/

/-- What is asked of the values of a group.  There is no least and no greatest value of none:
the answer is null. -/
def Op.of (op : Op) (values : List ℤ) : ℤ :=
  match op with
  | count => values.length
  | sum => values.sum
  | min => values.min?.getD dtNullInt.toInt
  | max => values.max?.getD dtNullInt.toInt

/-- The elements of the rows that have a key. -/
def groupCells {κ : Type} [DecidableEq κ] (ps : List (κ × Cell .int)) (k : κ) :
    List (Cell .int) :=
  (ps.filter fun p => p.1 = k).map Prod.snd

/-- The values that are not null. -/
def nonnull (data : List (Cell .int)) : List ℤ :=
  (data.filter fun v => v ≠ dtNullInt).map BitVec.toInt

/-- One row for every key, with what is asked of its group. -/
structure Partition (ps : List (Value × Cell .int)) (op : Op) (rows : List (Value × ℤ)) :
    Prop where
  nodup : (rows.map Prod.fst).Nodup
  keys : ∀ v, v ∈ rows.map Prod.fst ↔ v ∈ ps.map Prod.fst
  agg : ∀ p ∈ rows, p.2 = op.of (nonnull (groupCells ps p.1))

/-! ## Loops over the rows of a code -/

section

variable {data : List (Cell .int)}

theorem number_int (x : Cell .int) : x.number = x.toInt := Datatable.Cell.exact_int x

theorem foldl_nonnull {β : Type} (f : β → ℤ → β) (b : β) (data : List (Cell .int)) :
    data.foldl (fun m v => if v ≠ dtNullInt then f m v.number else m) b =
      (nonnull data).foldl f b := by
  rw [nonnull, List.foldl_map, List.foldl_filter]
  simp only [number_int, decide_eq_true_eq]

theorem countNonnull_eq (data : List (Cell .int)) : countNonnull data = (nonnull data).length := by
  have hfold : ∀ (l : List ℤ) (n : ℕ), l.foldl (fun cnt _ => cnt + 1) n = n + l.length := by
    intro l
    induction l with
    | nil => intro n; rfl
    | cons z l ih =>
        intro n
        rw [List.foldl_cons, ih, List.length_cons]
        omega
  calc countNonnull data = (nonnull data).foldl (fun cnt _ => cnt + 1) 0 :=
        foldl_nonnull (fun cnt _ => cnt + 1) 0 data
    _ = (nonnull data).length := by rw [hfold, Nat.zero_add]

theorem foldl_lesser (l : List ℤ) : l.foldl lesser none = l.min? := by
  have hsome : ∀ (l : List ℤ) (m : ℤ), l.foldl lesser (some m) = some (l.foldl min m) := by
    intro l
    induction l with
    | nil => intro m; rfl
    | cons z l ih =>
        intro m
        have hmin : lesser (some m) z = some (min m z) := by
          rw [lesser, min_def]
          split_ifs <;> first | rfl | (congr 1; omega)
        rw [List.foldl_cons, List.foldl_cons, hmin, ih]
  cases l with
  | nil => rfl
  | cons z l => exact hsome l z

theorem foldl_greater (l : List ℤ) : l.foldl greater none = l.max? := by
  have hsome : ∀ (l : List ℤ) (m : ℤ), l.foldl greater (some m) = some (l.foldl max m) := by
    intro l
    induction l with
    | nil => intro m; rfl
    | cons z l ih =>
        intro m
        have hmax : greater (some m) z = some (max m z) := by
          rw [greater, max_def]
          split_ifs <;> first | rfl | (congr 1; omega)
        rw [List.foldl_cons, List.foldl_cons, hmax, ih]
  cases l with
  | nil => rfl
  | cons z l => exact hsome l z

theorem minSkipnull_eq (data : List (Cell .int)) :
    minSkipnull data = (nonnull data).min?.getD dtNullInt.toInt := by
  rw [minSkipnull, foldl_nonnull, foldl_lesser, number_int]

theorem maxSkipnull_eq (data : List (Cell .int)) :
    maxSkipnull data = (nonnull data).max?.getD dtNullInt.toInt := by
  rw [maxSkipnull, foldl_nonnull, foldl_greater, number_int]

/-- The sum in an `int`. -/
theorem toInt_sumSkipnull (data : List (Cell .int)) :
    (sumSkipnull data).toInt = Int.bmod (nonnull data).sum (2 ^ 32) := by
  have hfold : ∀ (l : List (Cell .int)) (s : Cell .int),
      (l.foldl (fun s v => s + v) s).toInt = Int.bmod (s.toInt + (l.map BitVec.toInt).sum) (2 ^ 32) := by
    intro l
    induction l with
    | nil =>
        intro s
        rw [List.map_nil, List.sum_nil, add_zero]
        exact (BitVec.toInt_bmod_cancel s).symm
    | cons v l ih =>
        intro s
        have hadd : (s + v).toInt = Int.bmod (s.toInt + v.toInt) (2 ^ 32) := BitVec.toInt_add s v
        rw [List.foldl_cons, ih, hadd, Int.bmod_add_bmod, List.map_cons, List.sum_cons, add_assoc]
  have hzero : (0 : Cell .int).toInt = 0 := rfl
  calc (sumSkipnull data).toInt
      = ((data.filter fun v => v ≠ dtNullInt).foldl (fun s v => s + v) 0).toInt := by
        rw [sumSkipnull, List.foldl_filter]
        simp only [decide_eq_true_eq]
    _ = Int.bmod (nonnull data).sum (2 ^ 32) := by
        rw [hfold, hzero, zero_add, nonnull]

theorem bmod_eq_self_iff {z : ℤ} : Int.bmod z (2 ^ 32) = z ↔ -2 ^ 31 ≤ z ∧ z < 2 ^ 31 := by
  rw [Int.bmod_def]
  split_ifs <;> omega

/-- What is computed of the rows of a code is what is asked, but for a sum that does not fit
in an `int`. -/
theorem aggIndexed_eq_iff {op : Op} : aggIndexed data op = op.of (nonnull data) ↔
    (op = .sum → -2 ^ 31 ≤ (nonnull data).sum ∧ (nonnull data).sum < 2 ^ 31) := by
  cases op with
  | count => simp [aggIndexed, Op.of, countNonnull_eq]
  | sum =>
      rw [aggIndexed, Op.of, number_int, toInt_sumSkipnull, bmod_eq_self_iff]
      simp
  | min => simp [aggIndexed, Op.of, minSkipnull_eq]
  | max => simp [aggIndexed, Op.of, maxSkipnull_eq]

end

/-! ## Rows of a key -/

section

variable {κ : Type} [DecidableEq κ] {ps : List (κ × Cell .int)} {k : κ}

/-- The rows that have a key are gathered. -/
theorem gather_rowsWith (ps : List (κ × Cell .int)) (k : κ) :
    gather (ps.map Prod.snd) (rowsWith (ps.map Prod.fst) k) = .ok (groupCells ps k) := by
  obtain ⟨dest, hdest, hmap⟩ := gather_ok id (ps.map Prod.snd)
    fun i (hi : i ∈ rowsWith (ps.map Prod.fst) k) => by
      have hlt := (List.getElem?_eq_some_iff.mp (mem_rowsWith.mp hi)).1
      simpa using hlt
  rw [hdest]
  congr 1
  have hcells : ∀ ps : List (κ × Cell .int), (groupCells ps k).map some =
      (rowsWith (ps.map Prod.fst) k).map ((ps.map Prod.snd)[·]?) := by
    intro ps
    induction ps using List.reverseRecOn with
    | nil => rfl
    | append_singleton ps p ih =>
        -- the rows before have their own elements
        have hbefore : (rowsWith (ps.map Prod.fst) k).map ((ps.map Prod.snd ++ [p.2])[·]?) =
            (rowsWith (ps.map Prod.fst) k).map ((ps.map Prod.snd)[·]?) := by
          refine List.map_congr_left fun i hi => ?_
          have hlt := (List.getElem?_eq_some_iff.mp (mem_rowsWith.mp hi)).1
          exact List.getElem?_append_left (by simpa using hlt)
        rw [List.map_append, List.map_append, List.map_singleton, List.map_singleton,
          rowsWith_append, List.map_append, hbefore, ← ih, groupCells, groupCells,
          List.filter_append, List.map_append, List.map_append]
        by_cases hk : p.1 = k
        · simp [hk]
        · simp [hk]
  have hinj : Function.Injective (some : Cell .int → Option (Cell .int)) := Option.some_injective _
  exact List.map_injective_iff.mpr hinj (by simpa using hmap.trans (by simpa using (hcells ps).symm))

end

/-! ## Groups of an index -/

section

variable {α : Type} [DecidableEq α] {value : α → Value} {gc : Dictionary α}
  {data : List (Cell .int)} {op : Op}

theorem mapM_pure {β γ : Type} {f : β → Except Fault γ} {g : β → γ} {l : List β}
    (h : ∀ b ∈ l, f b = .ok (g b)) : l.mapM f = .ok (l.map g) := by
  induction l with
  | nil => rfl
  | cons b l ih =>
      obtain ⟨hb, hl⟩ := List.forall_mem_cons.mp h
      rw [List.mapM_cons, hb, ih hl]
      rfl

/-- The rows of a code are the rows of its value. -/
theorem rowsOf_eq (hvalue : Function.Injective value) {c : ℕ} {a : α} (hc : gc.pool[c]? = some a) :
    gc.rowsOf c = rowsWith (gc.rows.map value) (value a) := by
  rw [rowsWith_map hvalue, Dictionary.rowsOf, rowsWith, rowsWith, Dictionary.length_rows]
  refine List.filter_congr fun i _ => decide_eq_decide.mpr ?_
  have hrow : (gc.rows[i]?).map some = (gc.codes[i]?).map (gc.pool[·]?) := by
    simpa using congrArg (·[i]?) gc.map_some_rows
  cases hcode : gc.codes[i]? with
  | none =>
      have hnone : gc.rows[i]? = none := by simpa [hcode] using hrow
      simp [hnone]
  | some b =>
      obtain ⟨r, hr, hb⟩ : ∃ r, gc.rows[i]? = some r ∧ gc.pool[b]? = some r := by
        rw [hcode, Option.map_some, Option.map_eq_some_iff] at hrow
        obtain ⟨r, hr, hb⟩ := hrow
        exact ⟨r, hr, hb.symm⟩
      rw [hr, Option.some.injEq, Option.some.injEq]
      constructor
      · rintro rfl
        exact Option.some.inj (hb.symm.trans hc)
      · rintro rfl
        obtain ⟨hlt, hget⟩ := List.getElem?_eq_some_iff.mp hb
        obtain ⟨hlt', hget'⟩ := List.getElem?_eq_some_iff.mp hc
        exact (gc.nodup.getElem_inj_iff).mp (hget.trans hget'.symm)

/-- What the loop over the codes gives. -/
theorem groupbyIndexed_eq (hvalue : Function.Injective value) (hlen : gc.rows.length = data.length)
    (op : Op) : groupbyIndexed value gc data op =
      .ok ((gc.pool.zipIdx.filter fun p => gc.rowsOf p.2 ≠ []).map fun p =>
        (value p.1, aggIndexed (groupCells ((gc.rows.map value).zip data) (value p.1)) op)) := by
  refine mapM_pure fun p hp => ?_
  have hpool := List.mem_zipIdx_iff_getElem?.mp (List.mem_filter.mp hp).1
  have hgather := gather_rowsWith ((gc.rows.map value).zip data) (value p.1)
  rw [List.map_fst_zip (by simp [hlen]), List.map_snd_zip (by simp [hlen]),
    ← rowsOf_eq hvalue hpool] at hgather
  rw [hgather]
  rfl

/-- The keys of the loop over the codes are the ones of the rows, once each. -/
theorem keys_indexed (gc : Dictionary α) (hvalue : Function.Injective value) :
    (((gc.pool.zipIdx.filter fun p => gc.rowsOf p.2 ≠ []).map fun p => value p.1).Nodup) ∧
      ∀ v, v ∈ ((gc.pool.zipIdx.filter fun p => gc.rowsOf p.2 ≠ []).map fun p => value p.1) ↔
        v ∈ gc.rows.map value := by
  constructor
  · have hsub : ((gc.pool.zipIdx.filter fun p => gc.rowsOf p.2 ≠ []).map Prod.fst).Sublist
        gc.pool := by
      have hfilter := (List.filter_sublist (p := fun p => gc.rowsOf p.2 ≠ [])
        (l := gc.pool.zipIdx)).map Prod.fst
      rwa [List.zipIdx_map_fst] at hfilter
    have hnodup := (gc.nodup.sublist hsub).map hvalue
    rwa [List.map_map] at hnodup
  · intro v
    constructor
    · intro hv
      obtain ⟨p, hp, rfl⟩ := List.mem_map.mp hv
      obtain ⟨hmem, hne⟩ := List.mem_filter.mp hp
      rw [decide_eq_true_eq, rowsOf_eq hvalue (List.mem_zipIdx_iff_getElem?.mp hmem)] at hne
      obtain ⟨i, hi⟩ := List.exists_mem_of_ne_nil _ hne
      exact List.mem_of_getElem? (mem_rowsWith.mp hi)
    · intro hv
      obtain ⟨a, ha, rfl⟩ := List.mem_map.mp hv
      obtain ⟨c, -, hc⟩ := List.mem_filterMap.mp ha
      refine List.mem_map.mpr ⟨(a, c), List.mem_filter.mpr
        ⟨List.mem_zipIdx_iff_getElem?.mpr hc, ?_⟩, rfl⟩
      rw [decide_eq_true_eq, rowsOf_eq hvalue hc]
      obtain ⟨i, hi⟩ := List.getElem?_of_mem hv
      exact List.ne_nil_of_mem (mem_rowsWith.mpr hi)

/-- **Groups of an index** are a partition if and only if every sum fits in an `int`. -/
theorem indexed_partition_iff (op : Op) (hvalue : Function.Injective value)
    (hlen : gc.rows.length = data.length) :
    (∃ rows, groupbyIndexed value gc data op = .ok rows ∧
        Partition ((gc.rows.map value).zip data) op rows) ↔
      (op = .sum → ∀ v ∈ gc.rows.map value,
        -2 ^ 31 ≤ (nonnull (groupCells ((gc.rows.map value).zip data) v)).sum ∧
        (nonnull (groupCells ((gc.rows.map value).zip data) v)).sum < 2 ^ 31) := by
  obtain ⟨hnodup, hkeys⟩ := keys_indexed gc hvalue
  rw [groupbyIndexed_eq hvalue hlen]
  constructor
  · rintro ⟨rows, heq, hpart⟩ hop v hv
    obtain ⟨p, hp, rfl⟩ := List.mem_map.mp ((hkeys v).mpr hv)
    have hmem : (value p.1, aggIndexed (groupCells ((gc.rows.map value).zip data) (value p.1)) op) ∈
        rows := by
      rw [← Except.ok.inj heq]
      exact List.mem_map_of_mem hp
    exact aggIndexed_eq_iff.mp (hpart.agg _ hmem) hop
  · intro h
    refine ⟨_, rfl, ?_, fun v => ?_, fun p hp => ?_⟩
    · rw [List.map_map]
      exact hnodup
    · rw [List.map_map, List.map_fst_zip (by simp [hlen])]
      exact hkeys v
    · obtain ⟨q, hq, rfl⟩ := List.mem_map.mp hp
      exact aggIndexed_eq_iff.mpr fun hop => h hop _ ((hkeys _).mp (List.mem_map_of_mem hq))

end

/-! ## Groups of a hash table -/

section

variable {t : ColType} {ps : List (Cell t × Cell .int)} {op : Op}

/-- The values of the rows whose key has a text. -/
def members (ps : List (Cell t × Cell .int)) (k : List UInt8) : List ℤ :=
  (ps.filter fun p => groupKey p.1 = k).map fun p => p.2.toInt

/-- What is kept of the values of a group. -/
def accOf : List ℤ → Option Acc
  | [] => none
  | av :: l => some (l.foldl Acc.add (.start av))

theorem accOf_append (l : List ℤ) (av : ℤ) :
    accOf (l ++ [av]) = some ((accOf l).elim (.start av) fun acc => acc.add av) := by
  cases l with
  | nil => rfl
  | cons z l => simp [accOf, List.foldl_append]

theorem members_append (p : Cell t × Cell .int) (k : List UInt8) :
    members (ps ++ [p]) k = members ps k ++ if groupKey p.1 = k then [p.2.toInt] else [] := by
  by_cases hk : groupKey p.1 = k
  · simp [members, List.filter_append, hk]
  · simp [members, List.filter_append, hk]

theorem members_eq_nil_iff {k : List UInt8} :
    members ps k = [] ↔ ∀ x ∈ ps.map Prod.fst, groupKey x ≠ k := by
  simp [members, List.filter_eq_nil_iff]

theorem passGroups_append (p : Cell t × Cell .int) :
    passGroups (ps ++ [p]) = (passGroups ps).row p := by
  rw [passGroups, List.foldl_append]
  rfl

theorem Seen.row_ht (seen : Seen) (p : Cell t × Cell .int) :
    (seen.row p).ht = Function.update seen.ht (groupKey p.1)
      (some ((seen.ht (groupKey p.1)).elim (.start p.2.toInt) fun acc => acc.add p.2.toInt)) := by
  rw [← number_int, Seen.row]
  cases h : seen.ht (groupKey p.1) with
  | none => simp
  | some acc => simp

theorem Seen.row_groupOrder (seen : Seen) (p : Cell t × Cell .int) :
    (seen.row p).groupOrder = if seen.ht (groupKey p.1) = none
      then seen.groupOrder ++ [(p.1.number, groupKey p.1)] else seen.groupOrder := by
  rw [Seen.row]
  cases h : seen.ht (groupKey p.1) with
  | none => simp
  | some acc => simp

/-- The hash table, after the pass. -/
theorem passGroups_ht (ps : List (Cell t × Cell .int)) (k : List UInt8) :
    (passGroups ps).ht k = accOf (members ps k) := by
  induction ps using List.reverseRecOn generalizing k with
  | nil => rfl
  | append_singleton ps p ih =>
      rw [passGroups_append, Seen.row_ht, ih, members_append]
      by_cases hk : groupKey p.1 = k
      · rw [if_pos hk, accOf_append, hk, Function.update_self]
      · rw [if_neg hk, List.append_nil, Function.update_of_ne (Ne.symm hk), ih]

/-- The groups, after the pass: one for each text, with the key that came first. -/
theorem passGroups_order (ps : List (Cell t × Cell .int)) :
    ∃ os : List (Cell t), (passGroups ps).groupOrder = os.map (fun x => (x.number, groupKey x)) ∧
      (os.map groupKey).Nodup ∧ (∀ x ∈ os, x ∈ ps.map Prod.fst) ∧
      ∀ x ∈ ps.map Prod.fst, groupKey x ∈ os.map groupKey := by
  induction ps using List.reverseRecOn with
  | nil => exact ⟨[], rfl, .nil, by simp, by simp⟩
  | append_singleton ps p ih =>
      obtain ⟨os, horder, hnodup, hfrom, hall⟩ := ih
      rw [passGroups_append, Seen.row_groupOrder, passGroups_ht, horder, List.map_append,
        List.map_singleton]
      by_cases hnil : members ps (groupKey p.1) = []
      · -- a text that is new
        have hnew : groupKey p.1 ∉ os.map groupKey := by
          intro hmem
          obtain ⟨x, hx, hkey⟩ := List.mem_map.mp hmem
          exact members_eq_nil_iff.mp hnil x (hfrom x hx) hkey
        refine ⟨os ++ [p.1], by rw [if_pos (by rw [hnil]; rfl)]; simp, ?_, ?_, ?_⟩
        · rw [List.map_append, List.map_singleton, List.nodup_append']
          exact ⟨hnodup, List.nodup_singleton _, List.disjoint_singleton.mpr hnew⟩
        · intro x hx
          rcases List.mem_append.mp hx with hx | hx
          · exact List.mem_append_left _ (hfrom x hx)
          · exact List.mem_append_right _ hx
        · intro x hx
          rw [List.map_append]
          rcases List.mem_append.mp hx with hx | hx
          · exact List.mem_append_left _ (hall x hx)
          · exact List.mem_append_right _ (by simp [List.mem_singleton.mp hx])
      · -- a text that is in the table
        obtain ⟨z, l, hcons⟩ := List.exists_cons_of_ne_nil hnil
        refine ⟨os, by rw [if_neg (by simp [hcons, accOf])], hnodup,
          fun x hx => List.mem_append_left _ (hfrom x hx), fun x hx => ?_⟩
        rcases List.mem_append.mp hx with hx | hx
        · exact hall x hx
        · rw [List.mem_singleton.mp hx]
          by_contra hnew
          exact hnil (members_eq_nil_iff.mpr fun y hy hkey => hnew (hkey ▸ hall y hy))

/-! ### What is kept of a group -/

/-- The sums of the first values are numbers. -/
def Summable (l : List ℤ) : Prop := ∀ n, numberOf (l.take n).sum = (l.take n).sum

theorem foldl_add (l : List ℤ) (acc : Acc) :
    (l.foldl Acc.add acc).count = acc.count + l.length ∧
      (l.foldl Acc.add acc).min = l.foldl min acc.min ∧
      (l.foldl Acc.add acc).max = l.foldl max acc.max := by
  induction l generalizing acc with
  | nil => exact ⟨rfl, rfl, rfl⟩
  | cons z l ih =>
      obtain ⟨hcount, hmin, hmax⟩ := ih (acc.add z)
      refine ⟨?_, hmin, hmax⟩
      rw [List.foldl_cons, hcount, List.length_cons]
      show acc.count + 1 + l.length = acc.count + (l.length + 1)
      omega

theorem foldl_add_sum {l : List ℤ} (hl : Summable l) :
    ∀ acc, accOf l = some acc → acc.sum = l.sum := by
  induction l using List.reverseRecOn with
  | nil => simp [accOf]
  | append_singleton l z ih =>
      intro acc hacc
      rw [accOf_append, Option.some.injEq] at hacc
      have hlast : numberOf (l.sum + z) = l.sum + z := by
        have h := hl (l.length + 1)
        simpa using h
      have hbefore : Summable l := by
        intro n
        rcases le_total n l.length with hn | hn
        · have h := hl n
          rwa [List.take_append_of_le_length hn] at h
        · have h := hl l.length
          rwa [List.take_append_of_le_length le_rfl, List.take_length,
            ← List.take_of_length_le hn] at h
      cases hprev : accOf l with
      | none =>
          have hnil : l = [] := by
            cases l with
            | nil => rfl
            | cons z l => simp [accOf] at hprev
          rw [hprev] at hacc
          simp [← hacc, hnil, Acc.start]
      | some acc' =>
          rw [hprev] at hacc
          rw [← hacc, Option.elim_some, Acc.add, ih hbefore acc' hprev, hlast]
          simp

/-- **What is kept of a group** is what is asked of its values, if the sums are numbers. -/
theorem agg_accOf {l : List ℤ} {acc : Acc} (hacc : accOf l = some acc) (op : Op)
    (hl : op = .sum → Summable l) : acc.agg op = op.of l := by
  cases op with
  | sum => exact foldl_add_sum (hl rfl) acc hacc
  | count =>
      cases l with
      | nil => simp [accOf] at hacc
      | cons z l =>
          obtain rfl := Option.some.inj hacc
          rw [Acc.agg, (foldl_add l (.start z)).1, Op.of, List.length_cons, Acc.start]
          push_cast
          omega
  | min =>
      cases l with
      | nil => simp [accOf] at hacc
      | cons z l =>
          obtain rfl := Option.some.inj hacc
          exact (foldl_add l (.start z)).2.1
  | max =>
      cases l with
      | nil => simp [accOf] at hacc
      | cons z l =>
          obtain rfl := Option.some.inj hacc
          exact (foldl_add l (.start z)).2.2

/-! ### The groups -/

/-- Different keys have different texts. -/
def TextsApart (cells : List (Cell t)) : Prop :=
  ∀ x ∈ cells, ∀ y ∈ cells, groupKey x = groupKey y → x = y

/-- There are no null values. -/
def NoNull (data : List (Cell .int)) : Prop := ∀ v ∈ data, v ≠ dtNullInt

theorem groupbyNumeric_eq {cells : List (Cell t)} {data : List (Cell .int)}
    (hlen : cells.length = data.length) (hexact : ∀ x ∈ cells, x.Exact) :
    ∃ os : List (Cell t), (os.map groupKey).Nodup ∧ (∀ x ∈ os, x ∈ cells) ∧
      (∀ x ∈ cells, groupKey x ∈ os.map groupKey) ∧ ∀ op, ∃ aggs : Cell t → ℤ,
        groupbyNumeric cells data op = .ok (os.map fun x => (.cell t x, aggs x)) ∧
        ∀ x ∈ os, ∃ acc, accOf (members (cells.zip data) (groupKey x)) = some acc ∧
          aggs x = acc.agg op := by
  obtain ⟨os, horder, hnodup, hfrom, hall⟩ := passGroups_order (cells.zip data)
  rw [List.map_fst_zip hlen.le] at hfrom hall
  refine ⟨os, hnodup, hfrom, hall, fun op => ?_⟩
  have hacc : ∀ x ∈ os, ∃ acc, accOf (members (cells.zip data) (groupKey x)) = some acc := by
    intro x hx
    cases hmem : members (cells.zip data) (groupKey x) with
    | nil =>
        rw [members_eq_nil_iff, List.map_fst_zip hlen.le] at hmem
        exact absurd rfl (hmem x (hfrom x hx))
    | cons z l => exact ⟨_, rfl⟩
  refine ⟨fun x => ((accOf (members (cells.zip data) (groupKey x))).getD (.start 0)).agg op, ?_, ?_⟩
  · unfold groupbyNumeric
    simp only [horder, List.mapM_map]
    refine mapM_pure fun x hx => ?_
    obtain ⟨acc, h⟩ := hacc x hx
    have hcopy : BitVec.ofInt (8 * t.size) x.number = x := copy_of_exact (hexact x (hfrom x hx))
    simp only [Function.comp_apply, passGroups_ht, h, Option.getD_some, hcopy]
  · intro x hx
    obtain ⟨acc, h⟩ := hacc x hx
    refine ⟨acc, h, ?_⟩
    simp only [h, Option.getD_some]

theorem groupCells_map {κ κ' : Type} [DecidableEq κ] [DecidableEq κ'] {f : κ → κ'}
    (hf : Function.Injective f) (keys : List κ) (data : List (Cell .int)) (k : κ) :
    groupCells ((keys.map f).zip data) (f k) = groupCells (keys.zip data) k := by
  rw [← List.map_id data, List.zip_map, List.map_id, groupCells, groupCells, List.filter_map,
    List.map_map]
  simp [Function.comp_def, hf.eq_iff]

theorem cell_injective : Function.Injective (Value.cell t) := fun x y h => by simpa using h

theorem members_eq {cells : List (Cell t)} {data : List (Cell .int)} (hapart : TextsApart cells)
    {x : Cell t} (hx : x ∈ cells) :
    members (cells.zip data) (groupKey x) = (groupCells (cells.zip data) x).map BitVec.toInt := by
  rw [members, groupCells, List.map_map]
  congr 1
  refine List.filter_congr fun p hp => decide_eq_decide.mpr ⟨fun h => ?_, fun h => by rw [h]⟩
  exact hapart p.1 (List.of_mem_zip hp).1 x hx h

theorem mem_groupCells {κ : Type} [DecidableEq κ] {ps : List (κ × Cell .int)} {k : κ}
    {v : Cell .int} : v ∈ groupCells ps k ↔ (k, v) ∈ ps := by
  simp [groupCells]

/-- The counts are right only if the keys have different texts and no value is null. -/
theorem apart_of_counts {cells : List (Cell t)} {data : List (Cell .int)}
    (hlen : cells.length = data.length) (hexact : ∀ x ∈ cells, x.Exact)
    (h : ∃ rows, groupbyNumeric cells data .count = .ok rows ∧
      Partition ((cells.map (.cell t)).zip data) .count rows) :
    TextsApart cells ∧ NoNull data := by
  obtain ⟨os, hnodup, hfrom, hall, haggs⟩ := groupbyNumeric_eq hlen hexact
  obtain ⟨aggs, hok, hagg⟩ := haggs .count
  obtain ⟨rows, hrows, hpart⟩ := h
  obtain rfl := Except.ok.inj (hok.symm.trans hrows)
  have hkeys : ∀ x ∈ cells, x ∈ os := by
    intro x hx
    have hmem := (hpart.keys (.cell t x)).mpr (by
      rw [List.map_fst_zip (by simp [hlen])]
      exact List.mem_map_of_mem hx)
    rw [List.map_map] at hmem
    obtain ⟨y, hy, hxy⟩ := List.mem_map.mp hmem
    exact cell_injective hxy ▸ hy
  have hapart : TextsApart cells := fun x hx y hy hxy =>
    List.inj_on_of_nodup_map hnodup (hkeys x hx) (hkeys y hy) hxy
  refine ⟨hapart, fun v hv hnull => ?_⟩
  -- the group of the null value is counted with it
  obtain ⟨i, hi, rfl⟩ := List.getElem_of_mem hv
  have hi' : i < cells.length := hlen ▸ hi
  have hx : cells[i] ∈ cells := List.getElem_mem hi'
  obtain ⟨acc, hacc, hvalue⟩ := hagg _ (hkeys _ hx)
  have hcount := hpart.agg (.cell t cells[i], aggs cells[i])
    (List.mem_map_of_mem (hkeys _ hx))
  rw [hvalue, agg_accOf hacc .count (by simp), members_eq hapart hx] at hcount
  simp only [groupCells_map cell_injective] at hcount
  have hmem : data[i] ∈ groupCells (cells.zip data) cells[i] := by
    rw [mem_groupCells]
    refine List.mem_of_getElem? (i := i) ?_
    rw [List.getElem?_zip_eq_some]
    exact ⟨List.getElem?_eq_getElem hi', List.getElem?_eq_getElem hi⟩
  have hlt : ((groupCells (cells.zip data) cells[i]).filter fun v => v ≠ dtNullInt).length <
      (groupCells (cells.zip data) cells[i]).length :=
    List.length_filter_lt_length_iff_exists.mpr ⟨_, hmem, by simp [hnull]⟩
  simp only [Op.of, nonnull, List.length_map, Nat.cast_inj] at hcount
  omega

/-- **Groups of a hash table** are a partition, if the keys have different texts, no value is
null and the sums are numbers. -/
theorem numeric_partition {cells : List (Cell t)} {data : List (Cell .int)}
    (hlen : cells.length = data.length) (hexact : ∀ x ∈ cells, x.Exact)
    (hapart : TextsApart cells) (hnull : NoNull data) (op : Op)
    (hsum : op = .sum → ∀ x ∈ cells, Summable (nonnull (groupCells (cells.zip data) x))) :
    ∃ rows, groupbyNumeric cells data op = .ok rows ∧
      Partition ((cells.map (.cell t)).zip data) op rows := by
  obtain ⟨os, hnodup, hfrom, hall, haggs⟩ := groupbyNumeric_eq hlen hexact
  obtain ⟨aggs, hok, hagg⟩ := haggs op
  have hnonnull : ∀ x, nonnull (groupCells (cells.zip data) x) =
      (groupCells (cells.zip data) x).map BitVec.toInt := by
    intro x
    rw [nonnull, List.filter_eq_self.mpr]
    intro v hv
    have hmem := (List.of_mem_zip (mem_groupCells.mp hv)).2
    simpa using hnull v hmem
  refine ⟨_, hok, ?_, fun v => ?_, fun p hp => ?_⟩
  · rw [List.map_map]
    exact (hnodup.of_map _).map cell_injective
  · rw [List.map_map, List.map_fst_zip (by simp [hlen])]
    constructor
    · intro hv
      obtain ⟨x, hx, rfl⟩ := List.mem_map.mp hv
      exact List.mem_map_of_mem (hfrom x hx)
    · intro hv
      obtain ⟨x, hx, rfl⟩ := List.mem_map.mp hv
      obtain ⟨y, hy, hxy⟩ := List.mem_map.mp (hall x hx)
      obtain rfl := hapart y (hfrom y hy) x hx hxy
      exact List.mem_map_of_mem hy
  · obtain ⟨x, hx, rfl⟩ := List.mem_map.mp hp
    obtain ⟨acc, hacc, hvalue⟩ := hagg x hx
    rw [members_eq hapart (hfrom x hx), ← hnonnull] at hacc
    simp only [groupCells_map cell_injective, hvalue]
    exact agg_accOf hacc op fun hop => hsum hop x (hfrom x hx)

end

/-! ## Partitions -/

section

variable {ps : List (Value × Cell .int)} {op : Op} {rows rows' : List (Value × ℤ)}

theorem Partition.perm (h : Partition ps op rows) (hperm : rows.Perm rows') :
    Partition ps op rows' where
  nodup := (hperm.map _).nodup_iff.mp h.nodup
  keys := fun v => ((hperm.map _).mem_iff).symm.trans (h.keys v)
  agg := fun p hp => h.agg p (hperm.mem_iff.mpr hp)

/-- There is one partition, up to the order of the groups. -/
theorem Partition.unique (h : Partition ps op rows) (h' : Partition ps op rows') :
    rows.Perm rows' := by
  have hmem : ∀ {rows rows' : List (Value × ℤ)}, Partition ps op rows → Partition ps op rows' →
      ∀ p ∈ rows, p ∈ rows' := by
    intro rows rows' h h' p hp
    obtain ⟨q, hq, hpq⟩ := List.mem_map.mp ((h'.keys p.1).mpr ((h.keys p.1).mp
      (List.mem_map_of_mem hp)))
    have heq : q = p := Prod.ext hpq (by rw [h'.agg q hq, h.agg p hp, hpq])
    exact heq ▸ hq
  exact (List.perm_ext_iff_of_nodup (h.nodup.of_map _) (h'.nodup.of_map _)).mpr
    fun p => ⟨hmem h h' p, hmem h' h p⟩

end

/-! ## Group by -/

section

variable {dt dt' : DataTable} {groupCol aggCol : String} {gc : Column} {data : List (Cell .int)}
  {op : Op}

/-- The name of the new column is another one. -/
def NamesFree (groupCol aggCol : String) : Prop := ∀ op : Op, aggCol ++ "_" ++ op.name ≠ groupCol

/-- The sums fit in an `int`. -/
def SumsFit (keys : List Value) (data : List (Cell .int)) : Prop :=
  ∀ v ∈ keys, -2 ^ 31 ≤ (nonnull (groupCells (keys.zip data) v)).sum ∧
    (nonnull (groupCells (keys.zip data) v)).sum < 2 ^ 31

/-- What the groups need: with a pool, sums that fit; without, different texts and no null. -/
def Groupable (gc : Column) (data : List (Cell .int)) : Prop :=
  match gc with
  | .numeric _ cells => TextsApart cells ∧ NoNull data
  | gc => SumsFit gc.values data

/-- The sums of a group are numbers all the time, where they are taken in numbers. -/
def SumsExact (gc : Column) (data : List (Cell .int)) : Prop :=
  match gc with
  | .numeric _ cells => ∀ x ∈ cells, Summable (nonnull (groupCells (cells.zip data) x))
  | _ => True

/-- The rows of a group table, from the column of the key. -/
def Column.groupRows (gc : Column) (data : List (Cell .int)) (op : Op) :
    Except Fault (List (Value × ℤ)) :=
  match gc with
  | .string sc => groupbyIndexed .string sc data op
  | .intcol ic => groupbyIndexed (.cell .int) ic data op
  | .numeric _ cells => groupbyNumeric cells data op

/-- `datatable-group-by` gives a partition. -/
def Grouped (dt : DataTable) (groupCol aggCol : String) (gc : Column) (data : List (Cell .int)) :
    Prop :=
  ∀ op : Op, ∃ r, dt.groupBy groupCol aggCol op = .ok r ∧ Partition (gc.values.zip data) op r.rows

/-- `datatable-group-by` gives the same rows for two tables, up to their order. -/
def GroupedAlike (dt dt' : DataTable) (groupCol aggCol : String) : Prop :=
  ∀ op : Op, ∃ r r', dt.groupBy groupCol aggCol op = .ok r ∧
    dt'.groupBy groupCol aggCol op = .ok r' ∧ r.rows.Perm r'.rows

/-- A table of groups, from its rows. -/
theorem groupBy_ok_iff (hsound : dt.Sound) (hg : Named dt groupCol gc)
    (ha : Named dt aggCol (.numeric .int data)) {P : List (Value × ℤ) → Prop} :
    (∃ r, dt.groupBy groupCol aggCol op = .ok r ∧ P r.rows) ↔
      aggCol ++ "_" ++ op.name ≠ groupCol ∧ ∃ rows, gc.groupRows data op = .ok rows ∧ P rows := by
  obtain ⟨gi, hgname, hgcol⟩ := hg
  obtain ⟨ai, haname, hacol⟩ := ha
  obtain ⟨-, -, hgnth⟩ := getColumn_ok ((colIndex_eq_some_iff hsound).mpr hgname) hgcol
  obtain ⟨-, -, hanth⟩ := getColumn_ok ((colIndex_eq_some_iff hsound).mpr haname) hacol
  have heq : ∃ type, dt.groupBy groupCol aggCol op = (do
      let rows ← gc.groupRows data op
      newGroupTable groupCol type (aggCol ++ "_" ++ op.name) rows) := by
    unfold DataTable.groupBy
    rw [hgnth, hanth]
    cases gc with
    | numeric t cells => exact ⟨_, rfl⟩
    | string sc => exact ⟨_, rfl⟩
    | intcol ic => exact ⟨_, rfl⟩
  obtain ⟨type, heq⟩ := heq
  rw [heq]
  constructor
  · rintro ⟨r, hr, hP⟩
    obtain ⟨rows, hrows, hr⟩ := bind_ok.mp hr
    unfold newGroupTable at hr
    by_cases hname : aggCol ++ "_" ++ op.name = groupCol
    · rw [if_pos hname] at hr
      simp at hr
    · rw [if_neg hname] at hr
      obtain rfl := Except.ok.inj hr
      exact ⟨hname, rows, hrows, hP⟩
  · rintro ⟨hname, rows, hrows, hP⟩
    refine ⟨⟨groupCol, type, aggCol ++ "_" ++ op.name, rows⟩, bind_ok.mpr ⟨rows, hrows, ?_⟩, hP⟩
    rw [newGroupTable, if_neg hname]

theorem string_injective : Function.Injective Value.string := fun x y h => by simpa using h

/-- **Groups need what `Groupable` says.** -/
theorem groupable_of_grouped (hlen : gc.values.length = data.length) (hexact : gc.Exact)
    (h : ∀ op, ∃ rows, gc.groupRows data op = .ok rows ∧
      Partition (gc.values.zip data) op rows) : Groupable gc data := by
  cases gc with
  | numeric t cells =>
      exact apart_of_counts (by simpa [Column.values] using hlen) hexact (h .count)
  | string sc =>
      exact (indexed_partition_iff .sum string_injective (by simpa [Column.values] using hlen)).mp
        (h .sum) rfl
  | intcol ic =>
      exact (indexed_partition_iff .sum cell_injective (by simpa [Column.values] using hlen)).mp
        (h .sum) rfl

theorem grouped_of_groupable (hlen : gc.values.length = data.length) (hexact : gc.Exact)
    (h : Groupable gc data) (hsums : SumsExact gc data) (op : Op) :
    ∃ rows, gc.groupRows data op = .ok rows ∧ Partition (gc.values.zip data) op rows := by
  cases gc with
  | numeric t cells =>
      exact numeric_partition (by simpa [Column.values] using hlen) hexact h.1 h.2 op
        fun _ => hsums
  | string sc =>
      exact (indexed_partition_iff op string_injective (by simpa [Column.values] using hlen)).mpr
        fun _ => h
  | intcol ic =>
      exact (indexed_partition_iff op cell_injective (by simpa [Column.values] using hlen)).mpr
        fun _ => h

theorem grouped_iff (hsound : dt.Sound) (hg : Named dt groupCol gc)
    (ha : Named dt aggCol (.numeric .int data)) : Grouped dt groupCol aggCol gc data ↔
      NamesFree groupCol aggCol ∧ ∀ op, ∃ rows, gc.groupRows data op = .ok rows ∧
        Partition (gc.values.zip data) op rows := by
  unfold Grouped NamesFree
  rw [← forall_and]
  exact forall_congr' fun op => groupBy_ok_iff (P := Partition (gc.values.zip data) op) hsound hg ha

theorem length_values (hsound : dt.Sound) (hg : Named dt groupCol gc)
    (ha : Named dt aggCol (.numeric .int data)) : gc.values.length = data.length := by
  obtain ⟨-, -, -, -, hglen⟩ := hg.found hsound
  obtain ⟨-, -, -, -, halen⟩ := ha.found hsound
  rw [hglen, ← halen]
  simp [Column.values]

/-- Integers have different texts. -/
theorem textsApart_int (cells : List (Cell .int)) : TextsApart cells := by
  intro x _ y _ h
  have hbound : ∀ z : Cell .int, z.toInt.natAbs ≤ 10 ^ 10 := by
    intro z
    have hlt : z.toInt < 2 ^ 31 := BitVec.toInt_lt
    have hle : -2 ^ 31 ≤ z.toInt := BitVec.le_toInt z
    omega
  exact formatKey_injOn (Datatable.Cell.exact_int x) (Datatable.Cell.exact_int y) (hbound x)
    (hbound y) h

/-- The same integers in two encodings. -/
structure SameIntegers (dt dt' : DataTable) (groupCol aggCol : String) (ic : Dictionary (Cell .int))
    (data : List (Cell .int)) : Prop where
  plain : Named dt groupCol (.numeric .int ic.rows)
  coded : Named dt' groupCol (.intcol ic)
  agg : Named dt aggCol (.numeric .int data)
  agg' : Named dt' aggCol (.numeric .int data)

/-- **The encodings agree** when both give a partition. -/
theorem groupedAlike_of_grouped {ic : Dictionary (Cell .int)}
    (h : Grouped dt groupCol aggCol (.numeric .int ic.rows) data)
    (h' : Grouped dt' groupCol aggCol (.intcol ic) data) :
    GroupedAlike dt dt' groupCol aggCol := by
  intro op
  obtain ⟨r, hr, hpart⟩ := h op
  obtain ⟨r', hr', hpart'⟩ := h' op
  exact ⟨r, r', hr, hr', hpart.unique hpart'⟩

/-- What the encodings need to agree. -/
theorem needs_of_groupedAlike (hsound : dt.Sound) (hsound' : dt'.Sound)
    {ic : Dictionary (Cell .int)} (hsame : SameIntegers dt dt' groupCol aggCol ic data)
    (h : GroupedAlike dt dt' groupCol aggCol) :
    NamesFree groupCol aggCol ∧ NoNull data ∧
      (SumsExact (.numeric .int ic.rows) data → SumsFit (Column.intcol ic).values data) := by
  have hlen : ic.rows.length = data.length := by
    simpa [Column.values] using length_values hsound hsame.plain hsame.agg
  have hexact : ∀ x ∈ ic.rows, x.Exact := fun x _ => Datatable.Cell.exact_int x
  have hrows : ∀ op, aggCol ++ "_" ++ op.name ≠ groupCol ∧ ∃ rows rows',
      groupbyNumeric ic.rows data op = .ok rows ∧
      groupbyIndexed (Value.cell .int) ic data op = .ok rows' ∧ rows.Perm rows' := by
    intro op
    obtain ⟨r, r', hr, hr', hperm⟩ := h op
    obtain ⟨hname, rows, hrows, rfl⟩ := (groupBy_ok_iff hsound hsame.plain
      hsame.agg (P := (· = r.rows))).mp ⟨r, hr, rfl⟩
    obtain ⟨-, rows', hrows', rfl⟩ := (groupBy_ok_iff (P := (· = r'.rows)) hsound' hsame.coded
      hsame.agg').mp ⟨r', hr', rfl⟩
    exact ⟨hname, _, _, hrows, hrows', hperm⟩
  have hnull : NoNull data := by
    obtain ⟨-, rows, rows', hrows, hrows', hperm⟩ := hrows .count
    obtain ⟨rows'', hrows'', hpart⟩ := (indexed_partition_iff .count cell_injective
      hlen).mpr (by simp)
    obtain rfl := Except.ok.inj (hrows'.symm.trans hrows'')
    exact (apart_of_counts hlen hexact ⟨rows, hrows, hpart.perm hperm.symm⟩).2
  refine ⟨fun op => (hrows op).1, hnull, fun hsums => ?_⟩
  obtain ⟨-, rows, rows', hrows, hrows', hperm⟩ := hrows .sum
  obtain ⟨rows'', hrows'', hpart⟩ := numeric_partition hlen hexact (textsApart_int _) hnull .sum
    fun _ => hsums
  obtain rfl := Except.ok.inj (hrows.symm.trans hrows'')
  exact (indexed_partition_iff .sum cell_injective hlen).mp ⟨rows', hrows', hpart.perm hperm⟩ rfl

end

/-- Amounts of a shop, one of them null. -/
def sales : Table where
  colNames := ["shop", "amount"]
  columns := [.numeric .int [1, 1], .numeric .int [5, dtNullInt]]
  numRows := 2
  sound := ⟨rfl, by decide, by simp [Column.values]⟩

/-- The same shop in an `IntColumn`. -/
def codedSales : Table where
  colNames := ["shop", "amount"]
  columns := [.intcol (.ofRows [1, 1]), .numeric .int [5, dtNullInt]]
  numRows := 2
  sound := ⟨rfl, by decide, by simp [Column.values]⟩

end Lush.Tables
