import Lush.Datatable.Persisted

/-!
# What the file of a column holds

`Stores` says which rows the file of a column stands for: cells one after the other,
differences, or runs.  `columnardb-load-mem` reads these rows (`Stores.readColumn`).  What
`columnardb-append` puts at the end of a file is read as `readAs` says
(`Stores.appendCells`), which is the block itself only for cells one after the other.
-/

namespace Lush.Datatable

open Encodings

variable {t : ColType} {f : ColFile}

/-! ## Numbers -/

/-- An integer with at most 53 digits, and zeros after them, is a number. -/
theorem numberOf_eq_self {z : ℤ} {k e : ℕ} (h : z.natAbs = k * 2 ^ e) (hk : k ≤ 2 ^ 53) :
    numberOf z = z := by
  set m := z.natAbs with hm
  have hdvd : 2 ^ (Nat.log 2 m - 52) ∣ m := by
    rcases Nat.eq_zero_or_pos m with h0 | hpos
    · rw [h0]
      exact dvd_zero _
    · rcases hk.lt_or_eq with hlt | rfl
      · have hlog : Nat.log 2 m < 53 + e := by
          apply Nat.log_lt_of_lt_pow hpos.ne'
          rw [h, pow_add]
          exact Nat.mul_lt_mul_of_pos_right hlt (by positivity)
        exact (pow_dvd_pow 2 (by omega)).trans (Dvd.intro_left k h.symm)
      · have hpow : m = 2 ^ (53 + e) := by rw [h, pow_add]
        rw [hpow, Nat.log_pow (by norm_num)]
        exact pow_dvd_pow 2 (by omega)
  obtain ⟨c, hc⟩ := hdvd
  have hdiv : (m : ℚ) / 2 ^ (Nat.log 2 m - 52) = c := by
    rw [div_eq_iff (by positivity), mul_comm]
    exact_mod_cast hc
  unfold numberOf
  simp only [← hm]
  rw [hdiv, Binary64.roundHalfEven_natCast, mul_comm c, ← hc]
  exact Int.sign_mul_natAbs z

theorem roundHalfEven_le {q : ℚ} {n : ℕ} (hq : 0 ≤ q) (h : q < n) :
    Binary64.roundHalfEven q ≤ n := by
  have hfloor : ⌊q⌋₊ < n := (Nat.floor_lt hq).mpr h
  unfold Binary64.roundHalfEven
  simp only
  split_ifs
  · exact hfloor.le
  · exact hfloor

/-- A number has at most 53 digits, with zeros after them. -/
theorem exists_digits (z : ℤ) :
    ∃ k ≤ 2 ^ 53, (numberOf z).natAbs = k * 2 ^ (Nat.log 2 z.natAbs - 52) := by
  rcases eq_or_ne z 0 with rfl | hz
  · exact ⟨0, by simp [numberOf]⟩
  · refine ⟨Binary64.roundHalfEven ((z.natAbs : ℚ) / 2 ^ (Nat.log 2 z.natAbs - 52)), ?_, ?_⟩
    · apply roundHalfEven_le (by positivity)
      rw [div_lt_iff₀ (by positivity)]
      have hlt : z.natAbs < 2 ^ 53 * 2 ^ (Nat.log 2 z.natAbs - 52) :=
        calc z.natAbs < 2 ^ (Nat.log 2 z.natAbs + 1) := Nat.lt_pow_succ_log_self (by norm_num) _
          _ ≤ 2 ^ (53 + (Nat.log 2 z.natAbs - 52)) := Nat.pow_le_pow_right (by norm_num) (by omega)
          _ = 2 ^ 53 * 2 ^ (Nat.log 2 z.natAbs - 52) := pow_add ..
      exact_mod_cast hlt
    · unfold numberOf
      rw [Int.natAbs_mul, Int.natAbs_sign_of_ne_zero hz, one_mul, Int.natAbs_natCast]

/-- An element of a matrix that is the same as a number. -/
def Cell.Exact {t : ColType} (x : Cell t) : Prop := x.number = x.toInt

theorem Cell.exact_int (x : Cell .int) : x.Exact := by
  have hlt : x.toInt < 2 ^ 31 := BitVec.toInt_lt
  have hle : -2 ^ 31 ≤ x.toInt := BitVec.le_toInt x
  exact numberOf_eq_self (k := x.toInt.natAbs) (e := 0) (by simp) (by omega)

theorem Cell.natAbs_number_le (x : Cell .stamp) : x.number.natAbs ≤ 2 ^ 63 := by
  have hlt : x.toInt < 2 ^ 63 := BitVec.toInt_lt
  have hle : -2 ^ 63 ≤ x.toInt := BitVec.le_toInt x
  have habs : x.toInt.natAbs ≤ 2 ^ 63 := by omega
  rcases habs.lt_or_eq with habs | habs
  · obtain ⟨k, hk, hz⟩ := exists_digits x.toInt
    have hlog : Nat.log 2 x.toInt.natAbs < 63 := Nat.log_lt_of_lt_pow' (by norm_num) habs
    calc x.number.natAbs = k * 2 ^ (Nat.log 2 x.toInt.natAbs - 52) := hz
      _ ≤ 2 ^ 53 * 2 ^ 10 := Nat.mul_le_mul hk (Nat.pow_le_pow_right (by norm_num) (by omega))
      _ = 2 ^ 63 := by norm_num
  · have hself : x.number = x.toInt := numberOf_eq_self (k := 1) (e := 63) (by omega) (by norm_num)
    rw [hself, habs]

/-- **What has been copied is the same as a number.**  The number `2 ^ 63` is out of
range, and is stored as its opposite. -/
theorem Cell.exact_copy {t : ColType} (x : Cell t) : x.copy.Exact := by
  cases t with
  | int => exact Cell.exact_int _
  | stamp =>
      obtain ⟨k, hk, hz⟩ := exists_digits x.toInt
      have hle := x.natAbs_number_le
      have hcopy : x.copy.toInt = Int.bmod x.number (2 ^ 64) := BitVec.toInt_ofInt ..
      have habs : x.copy.toInt.natAbs = x.number.natAbs := by
        rw [hcopy, Int.bmod_def]
        split_ifs <;> omega
      exact numberOf_eq_self (habs.trans hz) hk

/-! ## Lists in order -/

/-- The cells are in nondecreasing order. -/
def InOrder {t : ColType} (rows : List (Cell t)) : Prop :=
  (rows.map BitVec.toInt).Pairwise (· ≤ ·)

theorem i1sortedp_iff {t : ColType} {rows : List (Cell t)} : i1sortedp rows ↔ InOrder rows := by
  unfold InOrder
  rw [← List.isChain_iff_pairwise]
  fun_induction i1sortedp rows with
  | case1 x y rows ih => simp_all
  | case2 rows h =>
      rcases rows with _ | ⟨x, _ | ⟨y, rows⟩⟩
      · simp
      · simp
      · exact absurd rfl (h x y rows)

theorem inOrder_of_sortedp {t : ColType} {rows : List (Cell t)} (h : sortedp t rows) :
    InOrder rows := by
  cases t with
  | int => exact i1sortedp_iff.mp h
  | stamp => exact i1sortedp_iff.mp (Bool.and_eq_true_iff.mp h).2

/-- Rows that are in order are so with others after them when these are in order after
the last row. -/
theorem inOrder_append {t : ColType} {rows block : List (Cell t)} (hne : rows ≠ [])
    (hrows : InOrder rows) :
    InOrder (rows ++ block) ↔ InOrder (rows.getLastD 0 :: block) := by
  obtain ⟨init, last, rfl⟩ := List.eq_nil_or_concat rows |>.resolve_left hne
  unfold InOrder at hrows ⊢
  rw [← List.isChain_iff_pairwise] at hrows ⊢
  rw [← List.isChain_iff_pairwise, List.map_append, List.isChain_append, List.concat_eq_append,
    List.getLastD_concat, List.map_append, List.map_cons, List.map_cons]
  cases block with
  | nil => simpa using hrows
  | cons x block =>
      rw [List.map_cons, List.isChain_cons_cons]
      simp_all [and_comm]

/-! ## Files -/

/-- The type code of the columns that are compressed. -/
def ColType.compressed : ColType → Typecode
  | .int => .rleInt32
  | .stamp => .deltaLong

/-- The rows of a file. -/
inductive Stores (f : ColFile) : (t : ColType) → List (Cell t) → Prop
  | raw {t : ColType} {rows : List (Cell t)} (hcode : f.typecode ≠ t.compressed)
      (hbytes : f.bytes = Words.write rows) (hexact : ∀ x ∈ rows, x.Exact) : Stores f t rows
  | deltas {ds : List (Cell .stamp)} (hcode : f.typecode = .deltaLong)
      (hbytes : f.bytes = Words.write ds) : Stores f .stamp (sums ds)
  | runs {rs : List (Cell .int × ℕ)} {n : ℕ} {rest : List UInt8} (hcode : f.typecode = .rleInt32)
      (hbytes : f.bytes = Words.write (BitVec.ofNat _ rs.length :: rleWords rs) ++ rest)
      (hcount : rs.length < 2 ^ 31) (hlen : ∀ r ∈ rs, r.2 < 2 ^ 31) :
      Stores f .int (expand rs ++ List.replicate n 0)

theorem toNat_toInt_ofNat {n : ℕ} (h : n < 2 ^ 31) :
    (BitVec.ofNat (8 * ColType.int.size) n).toInt.toNat = n := by
  have hint : (BitVec.ofNat (8 * ColType.int.size) n).toInt = Int.bmod n (2 ^ 32) :=
    BitVec.toInt_ofNat ..
  rw [hint, Int.bmod_eq_of_le (by omega) (by omega)]
  exact Int.toNat_natCast n

theorem length_rleWords (rs : List (Cell .int × ℕ)) : (rleWords rs).length = 2 * rs.length := by
  induction rs with
  | nil => rfl
  | cons r rs ih =>
      have hcons : rleWords (r :: rs) = r.1 :: BitVec.ofNat _ r.2 :: rleWords rs := rfl
      rw [hcons, List.length_cons, List.length_cons, List.length_cons, ih]
      omega

theorem rleRuns_rleWords {rs : List (Cell .int × ℕ)} (hlen : ∀ r ∈ rs, r.2 < 2 ^ 31) :
    rleRuns (rleWords rs) = rs := by
  induction rs with
  | nil => rfl
  | cons r rs ih =>
      have hcons : rleWords (r :: rs) = r.1 :: BitVec.ofNat _ r.2 :: rleWords rs := rfl
      rw [hcons, rleRuns, ih fun q hq => hlen q (by simp [hq]),
        toNat_toInt_ofNat (hlen r (by simp))]

theorem readCells_write {n : ℕ} {data : List (Cell t)} {rest : List UInt8} (hn : data.length = n)
    (h : f.bytes = Words.write data ++ rest) : readCells t n f = data := by
  subst hn
  rw [readCells, h]
  simpa using Words.read_write_append data 0 rest

theorem readRaw_write {data : List (Cell t)} (h : f.bytes = Words.write data) :
    readRaw data.length t f = some data := by
  rw [readRaw, readCells_write rfl (h.trans (List.append_nil _).symm), if_pos rfl]

theorem readRleInts_write {rs : List (Cell .int × ℕ)} {rest : List UInt8}
    (h : f.bytes = Words.write (BitVec.ofNat _ rs.length :: rleWords rs) ++ rest)
    (hcount : rs.length < 2 ^ 31) (hlen : ∀ r ∈ rs, r.2 < 2 ^ 31) (n : ℕ) :
    readRleInts f ((expand rs).length + n) = some (expand rs ++ List.replicate n 0) := by
  have hbytes : f.bytes = Words.write [(BitVec.ofNat _ rs.length : Cell .int)] ++
      (Words.write (rleWords rs) ++ rest) := by
    rw [h, Words.write_cons, Words.write_cons, Words.write_nil, List.append_nil,
      List.append_assoc]
  have hhead : readCells .int 1 f = [BitVec.ofNat _ rs.length] := readCells_write rfl hbytes
  have hcountEq : rleCount f = rs.length := by
    rw [rleCount, hhead]
    exact toNat_toInt_ofNat hcount
  have hwords : readCells .int (2 * rs.length + 1) f = BitVec.ofNat _ rs.length :: rleWords rs :=
    readCells_write (by rw [List.length_cons, length_rleWords]) h
  unfold readRleInts
  rw [hcountEq, hwords]
  simp only
  rw [if_pos (length_rleWords rs), rleRuns_rleWords hlen, List.take_of_length_le (Nat.le_add_right _ _),
    fill, Nat.add_sub_cancel_left]

/-- **The rows that a file stands for are read.** -/
theorem Stores.readColumn {rows : List (Cell t)} (h : Stores f t rows) :
    readColumn rows.length t f = some rows := by
  cases h with
  | raw hcode hbytes _ =>
      cases t with
      | int => exact (if_neg hcode).trans (readRaw_write hbytes)
      | stamp => exact (if_neg hcode).trans (readRaw_write hbytes)
  | @deltas ds hcode hbytes =>
      have hread : readCells .stamp ds.length f = ds :=
        readCells_write rfl (hbytes.trans (List.append_nil _).symm)
      rw [Datatable.readColumn, if_pos hcode, length_sums, hread, fill, Nat.sub_self,
        List.replicate_zero, List.append_nil]
  | @runs rs n rest hcode hbytes hcount hlen =>
      rw [Datatable.readColumn, if_pos hcode, List.length_append, List.length_replicate]
      exact readRleInts_write hbytes hcount hlen n

/-! ## Writing -/

theorem stores_writeCells {data : List (Cell t)} (h : ∀ x ∈ data, x.Exact) :
    Stores (writeCells t data) t data := by
  cases t with
  | int => exact .raw (by simp [writeCells, ColType.compressed]) rfl h
  | stamp => exact .raw (by simp [writeCells, ColType.compressed]) rfl h

theorem stores_compressCells {data : List (Cell t)} (h : data.length < 2 ^ 31) :
    Stores (compressCells t data) t data := by
  cases t with
  | int =>
      have hruns : Stores (writeRleInts data) .int (expand (runs data) ++ List.replicate 0 0) := by
        refine .runs rfl (List.append_nil _).symm ((length_runs_le data).trans_lt h) ?_
        intro r hr
        have hle := run_le_length hr
        rw [expand_runs] at hle
        exact hle.trans_lt h
      rwa [expand_runs, List.replicate_zero, List.append_nil] at hruns
  | stamp =>
      have hdeltas : Stores (writeDeltaLongs data) .stamp (sums (deltas data)) := .deltas rfl rfl
      rwa [sums_deltas] at hdeltas

/-! ## Appending -/

/-- The rows that a block is read as after it has been appended to a file, where `last` is
the row before it.  A file of runs has none for it, and the matrix keeps its zeros. -/
def readAs (code : Typecode) : (t : ColType) → Cell t → List (Cell t) → List (Cell t)
  | .int, _, data => if code = .rleInt32 then List.replicate data.length 0 else data
  | .stamp, last, data => if code = .deltaLong then sumsFrom last data else data

theorem readAs_raw {code : Typecode} (h : code ≠ t.compressed) (last : Cell t)
    (data : List (Cell t)) : readAs code t last data = data := by
  cases t with
  | int => exact if_neg h
  | stamp => exact if_neg h

theorem length_readAs (code : Typecode) (last : Cell t) (data : List (Cell t)) :
    (readAs code t last data).length = data.length := by
  cases t with
  | int =>
      unfold readAs
      split_ifs <;> simp
  | stamp =>
      unfold readAs
      split_ifs <;> simp

/-- **The rows of a file after an append.** -/
theorem Stores.appendCells {rows data : List (Cell t)} (h : Stores f t rows)
    (hdata : ∀ x ∈ data, x.Exact) (total : ℕ) :
    Stores (appendCells f data total) t (rows ++ readAs f.typecode t (rows.getLastD 0) data) := by
  cases h with
  | raw hcode hbytes hexact =>
      rw [readAs_raw hcode]
      refine .raw hcode ?_ ?_
      · rw [Datatable.appendCells, hbytes, Words.write_append]
      · intro x hx
        exact (List.mem_append.mp hx).elim (hexact x) (hdata x)
  | @deltas ds hcode hbytes =>
      rw [readAs, if_pos hcode, ← sums_append]
      refine .deltas hcode ?_
      rw [Datatable.appendCells, hbytes, Words.write_append]
  | @runs rs n rest hcode hbytes hcount hlen =>
      rw [readAs, if_pos hcode, List.append_assoc, List.replicate_append_replicate]
      have happend : (Datatable.appendCells f data total).bytes =
          Words.write (BitVec.ofNat _ rs.length :: rleWords rs) ++ (rest ++ Words.write data) := by
        rw [Datatable.appendCells, hbytes, List.append_assoc]
      exact .runs hcode happend hcount hlen

/-! ## The test of an append -/

theorem readCells_appendCells {ws data : List (Cell t)} (h : f.bytes = Words.write ws) (total : ℕ) :
    readCells t ws.length (appendCells f data total) = ws := by
  have hbytes : (appendCells f data total).bytes = Words.write ws ++ Words.write data := by
    rw [appendCells, h]
  exact readCells_write rfl hbytes

/-- The cells at the front of a file are still there after an append. -/
theorem Stores.stillSorted_appendCells {rows data : List (Cell t)} (h : Stores f t rows)
    (total : ℕ) : stillSorted rows.length (Datatable.appendCells f data total) t data =
      stillSorted rows.length f t data := by
  have hkeep {ws : List (Cell .stamp)} {data : List (Cell .stamp)} (hbytes : f.bytes = Words.write ws) :
      readCells .stamp ws.length (Datatable.appendCells f data total) =
        readCells .stamp ws.length f :=
    (readCells_appendCells hbytes total).trans
      (readCells_write rfl (hbytes.trans (List.append_nil _).symm)).symm
  cases h with
  | raw _ hbytes _ =>
      cases t with
      | int => rfl
      | stamp => simp only [stillSorted, hkeep hbytes]
  | deltas _ hbytes => simp only [stillSorted, length_sums, hkeep hbytes]
  | runs _ _ _ _ => rfl

end Lush.Datatable
