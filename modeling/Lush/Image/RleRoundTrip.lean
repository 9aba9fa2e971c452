import Lush.Image.Rle

/-!
# Reading run-length encoded files back

A reader that is in step with the writer goes on in white where the writer has stopped.  It stays
in step as long as no run goes up to the last column: behind such a run the writer adds a white
run of length 0 to a line that is full already, the reader takes it for the start of the next line,
and that line is read with its colours exchanged.  This does no harm on the last line.

So the file is read back exactly for the images where no line but the last one ends in black
(`roundTrips_iff`).  The number of lines also has to be an `int`, since it is printed as one.

`Reads` says what both readers find in a row of lengths.
-/

namespace Lush.Image

open Text

/-! ## Lengths in bytes -/

theorem toNat_byte {n : ℤ} (h : 0 ≤ n) (hlt : n < 256) : ((byte n).toNat : ℤ) = n := by
  have hmod : n.emod 256 = n := Int.emod_eq_of_lt h hlt
  rw [byte, hmod, UInt8.toNat_ofNat_of_lt' (by rw [UInt8.size]; omega)]
  omega

theorem toNat_byte_mod (n : ℤ) : ((byte n).toNat : ℤ) = n % 256 := by
  have hpos := Int.emod_nonneg n (b := 256) (by decide)
  have hlt := Int.emod_lt_of_pos n (b := 256) (by decide)
  have hbyte : byte n = byte (n % 256) := by
    rw [byte, byte]
    congr 2
    exact (Int.emod_emod_of_dvd n (dvd_refl 256)).symm
  rw [hbyte, toNat_byte hpos hlt]

theorem lengths_single {b : UInt8} (h : (b.toNat : ℤ) < 0xc0) (rest : List UInt8) :
    lengths (b :: rest) = (b.toNat : ℤ) :: lengths rest := by
  have hnot : ¬0xc0 ≤ b.toNat := by omega
  cases rest with
  | nil => simp only [lengths, if_neg hnot]
  | cons b' rest => rw [lengths, if_neg hnot]

/-- A length is read as it was written, in one byte or in two. -/
theorem lengths_writeRle {x : ℤ} (h : 0 ≤ x) (hlt : x < 0x4000) (rest : List UInt8) :
    lengths (writeRle x ++ rest) = x :: lengths rest := by
  have hcast : intCast x = x := intCast_of_inInt ⟨by omega, by omega⟩
  rw [writeRle, if_pos h]
  simp only [hcast]
  by_cases hsmall : x < 0xc0
  · have hbyte := toNat_byte h (by omega)
    rw [if_pos hsmall, List.singleton_append, lengths_single (by omega), hbyte]
  · have hor : ∀ a : Fin 64, a.val ||| 192 = a.val + 192 := by decide
    have hshift : x.toNat >>> 8 = x.toNat / 256 := Nat.shiftRight_eq_div_pow x.toNat 8
    have hfirst : (UInt8.ofNat (x.toNat >>> 8 ||| 0xc0)).toNat = x.toNat / 256 + 192 := by
      have hdiv : x.toNat / 256 < 64 := by omega
      rw [hshift, hor ⟨x.toNat / 256, hdiv⟩, UInt8.toNat_ofNat_of_lt' (by rw [UInt8.size]; omega)]
    rw [if_neg hsmall, if_pos hlt, List.cons_append, List.singleton_append, lengths,
      if_pos (by omega), hfirst, toNat_byte_mod]
    congr 1
    omega

/-- **The lengths are read as they were written.** -/
theorem lengths_flatMap {xs : List ℤ} (h : ∀ x ∈ xs, 0 ≤ x ∧ x < 0x4000) :
    lengths (xs.flatMap writeRle) = xs := by
  induction xs with
  | nil => rfl
  | cons x xs ih =>
      obtain ⟨⟨hx, hlt⟩, hxs⟩ := List.forall_mem_cons.mp h
      rw [List.flatMap_cons, lengths_writeRle hx hlt, ih hxs]

/-! ## The first line of the file -/

theorem fscanInt_integerText (n : ℤ) {c : UInt8} (hc : isDigit c = false) (rest : List UInt8) :
    fscanInt (ascii ' ' :: (integerText n ++ c :: rest)) = (n, c :: rest) := by
  obtain ⟨hne, hdigits⟩ := decimal_digits n.natAbs
  have hspace : isSpace (ascii ' ') = true := by decide
  have hminus : isDigit (ascii '-') = false ∧ isSpace (ascii '-') = false := by decide
  have hplus : isDigit (ascii '+') = false := by decide
  have htake : (decimal n.natAbs ++ c :: rest).takeWhile isDigit = decimal n.natAbs := by
    rw [List.takeWhile_append_of_pos hdigits, List.takeWhile_cons_of_neg (by simp [hc]),
      List.append_nil]
  have hdrop : (decimal n.natAbs ++ c :: rest).dropWhile isDigit = c :: rest := by
    rw [List.dropWhile_append_of_pos hdigits, List.dropWhile_cons_of_neg (by simp [hc])]
  rw [fscanInt, List.dropWhile_cons_of_pos hspace, integerText]
  by_cases hneg : n < 0
  · rw [if_pos hneg, List.singleton_append, List.cons_append,
      List.dropWhile_cons_of_neg (by simp [hminus.2])]
    simp only [List.head?_cons, true_or, if_true, List.tail_cons, htake, hdrop,
      digitsValue_decimal]
    congr 1
    omega
  · obtain ⟨d, ds, hds⟩ := List.exists_cons_of_ne_nil hne
    have hd := hdigits d (by rw [hds]; exact List.mem_cons_self)
    have hsign : ∀ b, isDigit b = false → some d ≠ some b := by
      rintro b hb heq
      rw [Option.some.inj heq, hb] at hd
      exact Bool.false_ne_true hd
    have hkeep : (decimal n.natAbs ++ c :: rest).dropWhile isSpace = decimal n.natAbs ++ c :: rest := by
      rw [hds, List.cons_append, List.dropWhile_cons_of_neg (by simp [(isDigit_facts hd).1])]
    have hhead : (decimal n.natAbs ++ c :: rest).head? = some d := by
      rw [hds]
      rfl
    rw [if_neg hneg, List.nil_append, hkeep]
    simp only [hhead, hsign _ hminus.1, hsign _ hplus, or_self, if_false, htake, hdrop,
      digitsValue_decimal]
    congr 1
    omega

/-- The dimensions are read as they are printed. -/
theorem readHeader_header (nlin ncol : ℤ) (codes : List UInt8) :
    readHeader (header nlin ncol ++ codes) = .ok (intCast ncol, intCast nlin, codes) := by
  have hspace : isDigit (ascii ' ') = false := by decide
  have hnewline : isDigit (ascii '\n') = false := by decide
  have hscan : fscanStr (header nlin ncol ++ codes) = ([ascii 'R', ascii '4'],
      ascii ' ' :: (integerText (intCast ncol) ++
        ascii ' ' :: (integerText (intCast nlin) ++ ascii '\n' :: codes))) := by
    rw [header]
    simp only [List.cons_append, List.append_assoc]
    rfl
  rw [readHeader, hscan]
  simp only [ne_eq, not_true_eq_false, if_false]
  rw [fscanInt_integerText _ hspace]
  simp only
  rw [fscanInt_integerText _ hnewline]
  rfl

/-! ## What the readers find -/

/-- What is stored for a length. -/
def blackRun (p : Position) (x : ℤ) : List Run :=
  if 0 < x ∧ p.white = false then [⟨p.n, p.c, p.c + x - 1⟩] else []

section

variable (nlin ncol : ℤ)

/-- Between two positions there are lengths, with some black runs, that go no farther than the end of
a line, and not beyond the last line. -/
inductive Reads : Position → List ℤ → List Run → Position → Prop
  | nil {p : Position} : Reads p [] [] p
  | cons {p q : Position} {x : ℤ} {xs : List ℤ} {runs : List Run} : 0 ≤ x →
      (0 < x → 0 ≤ p.n ∧ p.n < nlin ∧ p.c + x ≤ ncol) → Reads (p.advance ncol x) xs runs q →
      Reads p (x :: xs) (blackRun p x ++ runs) q

/-- Where the reader is when the writer has stopped at a column. -/
def after (y x2 : ℤ) : Position := if x2 < ncol then ⟨y, x2, true⟩ else ⟨y + 1, 0, true⟩

end

variable {nlin ncol : ℤ} {p q r : Position} {xs ys : List ℤ} {runs runs' : List Run}

theorem Reads.append (h : Reads nlin ncol p xs runs q) (h' : Reads nlin ncol q ys runs' r) :
    Reads nlin ncol p (xs ++ ys) (runs ++ runs') r := by
  induction h with
  | nil => exact h'
  | cons hx hfits _ ih =>
      rw [List.append_assoc]
      exact .cons hx hfits (ih h')

theorem Reads.nonneg (h : Reads nlin ncol p xs runs q) : ∀ x ∈ xs, 0 ≤ x := by
  induction h with
  | nil => exact fun x hx => absurd hx List.not_mem_nil
  | cons hx _ _ ih => exact List.forall_mem_cons.mpr ⟨hx, ih⟩

/-- A white run. -/
theorem reads_white {y c x : ℤ} (hx : 0 ≤ x) (hy : 0 ≤ y ∧ y < nlin) (hend : c + x ≤ ncol) :
    Reads nlin ncol ⟨y, c, true⟩ [x] [] (Position.advance ncol ⟨y, c, true⟩ x) := by
  have hnone : blackRun ⟨y, c, true⟩ x = [] := if_neg fun h => Bool.noConfusion h.2
  have hreads : Reads nlin ncol ⟨y, c, true⟩ [x] (blackRun ⟨y, c, true⟩ x ++ []) _ :=
    .cons hx (fun _ => ⟨hy.1, hy.2, hend⟩) .nil
  rwa [hnone] at hreads

/-- The rest of a line. -/
theorem reads_rest {y c : ℤ} (hy : 0 ≤ y ∧ y < nlin) (hc : c ≤ ncol) :
    Reads nlin ncol ⟨y, c, true⟩ [ncol - c] [] ⟨y + 1, 0, true⟩ := by
  have hreads : Reads nlin ncol ⟨y, c, true⟩ [ncol - c] [] _ :=
    reads_white (by omega) hy (by omega)
  rwa [Position.advance, if_pos (by change ncol ≤ c + (ncol - c); omega)] at hreads

/-- White lines. -/
theorem reads_lines {y : ℤ} (k : ℕ) (hy : 0 ≤ y) (hk : y + k ≤ nlin) (hncol : 0 ≤ ncol) :
    Reads nlin ncol ⟨y, 0, true⟩ (List.replicate k ncol) [] ⟨y + k, 0, true⟩ := by
  induction k generalizing y with
  | zero =>
      rw [Nat.cast_zero, add_zero]
      exact .nil
  | succ k ih =>
      push_cast at hk
      have hline : Reads nlin ncol ⟨y, 0, true⟩ [ncol - 0] [] _ := reads_rest ⟨hy, by omega⟩ hncol
      rw [sub_zero] at hline
      have hlines := hline.append (ih (y := y + 1) (by omega) (by omega))
      rw [List.replicate_succ]
      have hend : y + 1 + (k : ℤ) = y + (k + 1 : ℕ) := by
        push_cast
        ring
      rw [hend] at hlines
      exact hlines

/-- A black run, with the white run before it. -/
theorem reads_run {y c x1 x2 : ℤ} (hy : 0 ≤ y ∧ y < nlin) (hc : c ≤ x1) (hx : x1 ≤ x2)
    (hx2 : x2 < ncol) :
    Reads nlin ncol ⟨y, c, true⟩ [x1 - c, x2 + 1 - x1] [⟨y, x1, x2⟩] (after ncol y (x2 + 1)) := by
  have hwhite : Reads nlin ncol ⟨y, c, true⟩ [x1 - c] [] _ :=
    reads_white (by omega) hy (by omega)
  have hblack : blackRun ⟨y, x1, false⟩ (x2 + 1 - x1) = [⟨y, x1, x2⟩] := by
    rw [blackRun, if_pos ⟨by omega, rfl⟩]
    have hlast : x1 + (x2 + 1 - x1) - 1 = x2 := by omega
    simp only [hlast]
  have hsum : x1 + (x2 + 1 - x1) = x2 + 1 := by omega
  have hend : Position.advance ncol ⟨y, x1, false⟩ (x2 + 1 - x1) = after ncol y (x2 + 1) := by
    unfold Position.advance after
    simp only [hsum, Bool.not_false]
    split_ifs <;> first | rfl | omega
  have hrun : Reads nlin ncol ⟨y, x1, false⟩ [x2 + 1 - x1]
      (blackRun ⟨y, x1, false⟩ (x2 + 1 - x1) ++ []) _ :=
    .cons (by omega) (fun _ => ⟨hy.1, hy.2, by change x1 + _ ≤ ncol; omega⟩) .nil
  rw [hblack, hend] at hrun
  have hstart : Position.advance ncol ⟨y, c, true⟩ (x1 - c) = ⟨y, x1, false⟩ := by
    have hsum' : c + (x1 - c) = x1 := by omega
    unfold Position.advance
    simp only [hsum', Bool.not_true]
    rw [if_neg (by omega)]
  rw [hstart] at hwhite
  exact hwhite.append hrun

/-! ## The image and its runs -/

/-- The maximal black runs of an image, line after line. -/
structure MaximalRuns (image : ℤ → ℤ → Bool) (nlin ncol : ℤ) (runs : List Run) : Prop where
  inside : ∀ r ∈ runs, 0 ≤ r.y ∧ r.y < nlin ∧ 0 ≤ r.x1 ∧ r.x1 ≤ r.x2 ∧ r.x2 < ncol
  ordered : runs.Pairwise fun r r' => r.y < r'.y ∨ r.y = r'.y ∧ r.x2 + 1 < r'.x1
  black : ∀ y x, 0 ≤ y → y < nlin → 0 ≤ x → x < ncol →
    (image y x = true ↔ ∃ r ∈ runs, r.y = y ∧ r.x1 ≤ x ∧ x ≤ r.x2)

/-- The runs that come after a position of the writer. -/
structure Follow (nlin ncol prevy prevx2 : ℤ) (runs : List Run) : Prop where
  inside : ∀ r ∈ runs, 0 ≤ r.y ∧ r.y < nlin ∧ 0 ≤ r.x1 ∧ r.x1 ≤ r.x2 ∧ r.x2 < ncol
  ordered : runs.Pairwise fun r r' => r.y < r'.y ∨ r.y = r'.y ∧ r.x2 + 1 < r'.x1
  later : ∀ r ∈ runs, prevy < r.y ∨ prevy = r.y ∧ prevx2 ≤ r.x1
  line : 0 ≤ prevy ∧ prevy < nlin
  column : 0 ≤ prevx2 ∧ prevx2 ≤ ncol

variable {prevy prevx2 : ℤ} {run : Run}

theorem Follow.head (h : Follow nlin ncol prevy prevx2 (run :: runs)) :
    (0 ≤ run.y ∧ run.y < nlin) ∧ (0 ≤ run.x1 ∧ run.x1 ≤ run.x2 ∧ run.x2 < ncol) ∧
      (prevy < run.y ∨ prevy = run.y ∧ prevx2 ≤ run.x1) := by
  obtain ⟨h0, hlt, h1, h2, h3⟩ := h.inside run List.mem_cons_self
  exact ⟨⟨h0, hlt⟩, ⟨h1, h2, h3⟩, h.later run List.mem_cons_self⟩

theorem Follow.tail (h : Follow nlin ncol prevy prevx2 (run :: runs)) :
    Follow nlin ncol run.y (run.x2 + 1) runs := by
  obtain ⟨hline, hcolumn, -⟩ := h.head
  obtain ⟨hfirst, hordered⟩ := List.pairwise_cons.mp h.ordered
  refine ⟨fun r hr => h.inside r (List.mem_cons_of_mem _ hr), hordered, fun r hr => ?_, hline,
    by omega⟩
  rcases hfirst r hr with hlt | ⟨heq, hlt⟩
  · exact .inl hlt
  · exact .inr ⟨heq, hlt.le⟩

theorem nextx2_eq (h : Follow nlin ncol prevy prevx2 (run :: runs)) :
    nextx2 nlin ncol run = run.x2 + 1 := by
  obtain ⟨hline, hcolumn, -⟩ := h.head
  rw [nextx2, if_neg (by omega), if_neg (by omega)]

/-- What is written for a run of the image. -/
theorem writeRun_eq (h : Follow nlin ncol prevy prevx2 (run :: runs)) :
    writeRun nlin ncol prevy prevx2 run =
      if run.y = prevy then [run.x1 - prevx2, run.x2 + 1 - run.x1]
      else (ncol - prevx2) :: (List.replicate (run.y - prevy - 1).toNat ncol ++
        [run.x1, run.x2 + 1 - run.x1]) := by
  obtain ⟨hline, hcolumn, -⟩ := h.head
  rw [writeRun, if_neg (by omega), if_neg (by omega), if_neg (by omega), fullLines]
  split_ifs
  · rfl
  · rw [List.cons_append, List.append_assoc]
    rfl

/-- **The lengths have at most two bytes.** -/
theorem writes_bounds (hncol : ncol < 0x4000) (h : Follow nlin ncol prevy prevx2 runs) :
    ∀ x ∈ writes nlin ncol prevy prevx2 runs, 0 ≤ x ∧ x < 0x4000 := by
  have hlines : 0 ≤ ncol → ∀ k : ℕ, ∀ x ∈ List.replicate k ncol, 0 ≤ x ∧ x < 0x4000 := by
    intro h0 k x hx
    rw [(List.mem_replicate.mp hx).2]
    exact ⟨h0, hncol⟩
  induction runs generalizing prevy prevx2 with
  | nil =>
      have hcolumn := h.column
      rw [writes]
      exact List.forall_mem_cons.mpr ⟨by omega, hlines (by omega) _⟩
  | cons run runs ih =>
      obtain ⟨hline, hrun, hlater⟩ := h.head
      have hcolumn := h.column
      rw [writes, writeRun_eq h, nextx2_eq h]
      rw [List.forall_mem_append]
      refine ⟨?_, ih h.tail⟩
      split_ifs with heq
      · simp only [List.forall_mem_cons, List.not_mem_nil, false_imp_iff, implies_true, and_true]
        omega
      · simp only [List.forall_mem_cons, List.forall_mem_append, List.not_mem_nil, false_imp_iff,
          implies_true, and_true]
        exact ⟨by omega, hlines (by omega) _, by omega, by omega⟩

/-- **A reader in step with the writer** finds the next run, and is in step again. -/
theorem reads_writeRun (h : Follow nlin ncol prevy prevx2 (run :: runs)) :
    Reads nlin ncol ⟨prevy, prevx2, true⟩ (writeRun nlin ncol prevy prevx2 run) [run]
      (after ncol run.y (run.x2 + 1)) := by
  obtain ⟨hline, hrun, hlater⟩ := h.head
  have hprev := h.line
  have hcolumn := h.column
  rw [writeRun_eq h]
  split_ifs with heq
  · rw [← heq]
    exact reads_run hline (by omega) hrun.2.1 hrun.2.2
  · have hrest := reads_rest hprev hcolumn.2
    have hlines : Reads nlin ncol ⟨prevy + 1, 0, true⟩ _ [] _ :=
      reads_lines (run.y - prevy - 1).toNat (by omega) (by omega) (by omega)
    have hend : prevy + 1 + ((run.y - prevy - 1).toNat : ℤ) = run.y := by omega
    rw [hend] at hlines
    have hblack := reads_run (c := 0) hline hrun.1 hrun.2.1 hrun.2.2
    rw [sub_zero] at hblack
    exact hrest.append (hlines.append hblack)

/-- No run goes up to the last column, but on the last line. -/
def Clear (nlin ncol : ℤ) (runs : List Run) : Prop :=
  ∀ r ∈ runs, r.x2 + 1 = ncol → r.y + 1 = nlin

theorem reads_writes (h : Follow nlin ncol prevy prevx2 runs) (hclear : Clear nlin ncol runs) :
    ∃ q, q.n = nlin ∧ Reads nlin ncol ⟨prevy, prevx2, true⟩ (writes nlin ncol prevy prevx2 runs)
      runs q := by
  induction runs generalizing prevy prevx2 with
  | nil =>
      have hline := h.line
      have hcolumn := h.column
      refine ⟨⟨nlin, 0, true⟩, rfl, ?_⟩
      have hlines : Reads nlin ncol ⟨prevy + 1, 0, true⟩ _ [] _ :=
        reads_lines (nlin - prevy - 1).toNat (by omega) (by omega) (by omega)
      have hend : prevy + 1 + ((nlin - prevy - 1).toNat : ℤ) = nlin := by omega
      rw [hend] at hlines
      exact (reads_rest hline hcolumn.2).append hlines
  | cons run runs ih =>
      obtain ⟨hline, hrun, -⟩ := h.head
      have hreads := reads_writeRun h
      rw [writes, nextx2_eq h]
      by_cases hfull : run.x2 + 1 < ncol
      · obtain ⟨q, hq, hrest⟩ := ih h.tail fun r hr => hclear r (List.mem_cons_of_mem _ hr)
        rw [after, if_pos hfull] at hreads
        exact ⟨q, hq, hreads.append hrest⟩
      · -- This is the last line, and only a white run of length 0 follows.
        have hlast := hclear run List.mem_cons_self (by omega)
        have hnil : runs = [] := by
          refine List.eq_nil_iff_forall_not_mem.mpr fun r hr => ?_
          have hinside := h.tail.inside r hr
          rcases h.tail.later r hr with hlt | ⟨-, hle⟩ <;> omega
        subst hnil
        have hzero : ncol - (run.x2 + 1) = 0 := by omega
        have hone : fullLines ncol (nlin - run.y) = [] := by
          rw [fullLines, show (nlin - run.y - 1).toNat = 0 by omega, List.replicate_zero]
        rw [after, if_neg hfull] at hreads
        rw [writes, hzero, hone]
        refine ⟨_, ?_, hreads.append (.cons le_rfl (fun h => absurd h (lt_irrefl 0)) .nil)⟩
        rw [Position.advance]
        split_ifs with hncol
        · exact absurd hncol (by change ¬ncol ≤ 0 + 0; omega)
        · exact hlast

/-! ## The loop of `rle-read-runs` -/

/-- There is a row, and at most one run for each row. -/
structure Rows.Enough (rows : Rows) : Prop where
  pos : 1 ≤ rows.dim
  length : (rows.runs.length : ℤ) ≤ rows.dim

theorem Rows.Enough.store {rows : Rows} (h : rows.Enough) (p : Position) (x : ℤ) :
    ∃ rows' : Rows, rows.store p x = .ok rows' ∧
      rows'.runs = rows.runs ++ [⟨p.n, p.c, p.c + x - 1⟩] ∧ rows'.Enough := by
  have hpos := h.pos
  have hlength := h.length
  have hroom : ¬(if rows.dim ≤ rows.runs.length then 2 * rows.dim else rows.dim) ≤
      (rows.runs.length : ℤ) := by
    split_ifs <;> omega
  refine ⟨_, if_neg hroom, rfl, ?_, ?_⟩
  · change 1 ≤ ite _ _ _
    split_ifs <;> omega
  · change ((rows.runs ++ [_]).length : ℤ) ≤ ite _ _ _
    rw [List.length_append, List.length_singleton]
    push_cast
    omega

theorem Rows.store_runs {rows rows' : Rows} {p : Position} {x : ℤ}
    (h : rows.store p x = .ok rows') : rows'.runs = rows.runs ++ [⟨p.n, p.c, p.c + x - 1⟩] := by
  unfold Rows.store at h
  simp only at h
  split_ifs at h
  all_goals
    obtain rfl := Except.ok.inj h
    rfl

/-- The loop stores the black runs. -/
theorem Reads.readRuns (h : Reads nlin ncol p xs runs q) {rows : Rows} (hrows : rows.Enough)
    (ys : List ℤ) : ∃ rows' : Rows, rows'.runs = rows.runs ++ runs ∧ rows'.Enough ∧
      Image.readRuns ncol (xs ++ ys) p rows = Image.readRuns ncol ys q rows' := by
  induction h generalizing rows with
  | nil => exact ⟨rows, (List.append_nil _).symm, hrows, rfl⟩
  | @cons p q x xs runs hx hfits _ ih =>
      rw [List.cons_append, Image.readRuns, blackRun]
      by_cases hblack : 0 < x ∧ p.white = false
      · obtain ⟨rows₁, hstore, hruns₁, hrows₁⟩ := hrows.store p x
        obtain ⟨rows', hruns, hrows', hrest⟩ := ih hrows₁
        refine ⟨rows', ?_, hrows', ?_⟩
        · rw [hruns, hruns₁, if_pos hblack, List.append_assoc]
        · rw [Rows.round, if_pos hblack, hstore, ok_bind, hrest]
      · obtain ⟨rows', hruns, hrows', hrest⟩ := ih hrows
        refine ⟨rows', ?_, hrows', ?_⟩
        · rw [hruns, if_neg hblack, List.nil_append]
        · rw [Rows.round, if_neg hblack, ok_bind, hrest]

/-- A run that starts at the position or after it. -/
def Position.Precedes (p : Position) (run : Run) : Prop :=
  p.n < run.y ∨ p.n = run.y ∧ p.c ≤ run.x1

theorem Position.Precedes.of_advance {x : ℤ} (hx : 0 ≤ x)
    (h : (p.advance ncol x).Precedes run) : p.Precedes run := by
  unfold Position.advance Position.Precedes at h
  unfold Position.Precedes
  split_ifs at h
  · change p.n + 1 < run.y ∨ p.n + 1 = run.y ∧ 0 ≤ run.x1 at h
    omega
  · change p.n < run.y ∨ p.n = run.y ∧ p.c + x ≤ run.x1 at h
    omega

/-- The runs that are stored later start later. -/
theorem readRuns_later {rows : Rows} {res : Position × Rows} (hxs : ∀ x ∈ xs, 0 ≤ x)
    (h : Image.readRuns ncol xs p rows = .ok res) :
    ∃ more, res.2.runs = rows.runs ++ more ∧ ∀ run ∈ more, p.Precedes run := by
  induction xs generalizing p rows with
  | nil =>
      obtain rfl := Except.ok.inj h
      exact ⟨[], (List.append_nil _).symm, fun run hrun => absurd hrun List.not_mem_nil⟩
  | cons x xs ih =>
      obtain ⟨hx, hxs⟩ := List.forall_mem_cons.mp hxs
      rw [Image.readRuns] at h
      obtain ⟨rows₁, hstore, h⟩ := bind_ok.mp h
      obtain ⟨more, hmore, hlater⟩ := ih hxs h
      have hlater' : ∀ run ∈ more, p.Precedes run := fun run hrun =>
        (hlater run hrun).of_advance hx
      unfold Rows.round at hstore
      split_ifs at hstore with hblack
      · refine ⟨⟨p.n, p.c, p.c + x - 1⟩ :: more, ?_, ?_⟩
        · rw [hmore, Rows.store_runs hstore, List.append_assoc]
          rfl
        · exact List.forall_mem_cons.mpr ⟨.inr ⟨rfl, le_rfl⟩, hlater'⟩
      · obtain rfl := Except.ok.inj hstore
        exact ⟨more, hmore, hlater'⟩

/-- The first run that is stored, where a length is read in black. -/
theorem readRuns_black {rows : Rows} {x : ℤ} {res : Position × Rows} (hx : 0 < x)
    (hp : p.white = false) (hxs : ∀ x ∈ xs, 0 ≤ x)
    (h : Image.readRuns ncol (x :: xs) p rows = .ok res) :
    ∃ more, res.2.runs = rows.runs ++ ⟨p.n, p.c, p.c + x - 1⟩ :: more := by
  rw [Image.readRuns, Rows.round, if_pos ⟨hx, hp⟩] at h
  obtain ⟨rows₁, hstore, h⟩ := bind_ok.mp h
  obtain ⟨more, hmore, -⟩ := readRuns_later hxs h
  refine ⟨more, ?_⟩
  rw [hmore, Rows.store_runs hstore, List.append_assoc]
  rfl

/-- **A reader out of step** does not find the runs of the next lines: they are read in the wrong
colour. -/
theorem readRuns_out_of_step {y : ℤ} {rows : Rows} {res : Position × Rows} (hncol : 1 ≤ ncol)
    (hlimit : ncol < 0x4000) (hy : y + 1 < nlin) (hfollow : Follow nlin ncol y ncol runs)
    (h : Image.readRuns ncol (writes nlin ncol y ncol runs) ⟨y + 1, 0, true⟩ rows = .ok res) :
    res.2.runs ≠ rows.runs ++ runs := by
  intro hsame
  have hbounds := writes_bounds hlimit hfollow
  -- The white run of length 0 exchanges the colours.
  have hzero : ∀ {xs : List ℤ}, Image.readRuns ncol ((ncol - ncol) :: xs) ⟨y + 1, 0, true⟩ rows =
      Image.readRuns ncol xs ⟨y + 1, 0, false⟩ rows := by
    intro xs
    have hadvance : Position.advance ncol ⟨y + 1, 0, true⟩ (ncol - ncol) = ⟨y + 1, 0, false⟩ := by
      unfold Position.advance
      simp only [sub_self, add_zero, Bool.not_true]
      rw [if_neg (by omega)]
    rw [Image.readRuns, Rows.round, if_neg (by simp), ok_bind, hadvance]
  cases runs with
  | nil =>
      rw [writes, fullLines] at h hbounds
      obtain ⟨k, hk⟩ : ∃ k, (nlin - y - 1).toNat = k + 1 := ⟨(nlin - y - 2).toNat, by omega⟩
      rw [hk, List.replicate_succ] at h hbounds
      rw [hzero] at h
      obtain ⟨-, -, hxs⟩ := List.forall_mem_cons.mp hbounds |>.imp_right List.forall_mem_cons.mp
      obtain ⟨more, hmore⟩ := readRuns_black (by omega) rfl (fun x hx => (hxs x hx).1) h
      rw [hsame, List.append_nil] at hmore
      exact absurd hmore (by simp)
  | cons run runs =>
      obtain ⟨hline, hrun, hlater⟩ := hfollow.head
      have hne : run.y ≠ y := by omega
      rw [writes, writeRun_eq hfollow, if_neg hne, List.cons_append] at h hbounds
      obtain ⟨-, hxs⟩ := List.forall_mem_cons.mp hbounds
      rw [hzero] at h
      by_cases hnext : run.y = y + 1
      · have hnone : (run.y - y - 1).toNat = 0 := by omega
        rw [hnone, List.replicate_zero, List.nil_append, List.cons_append] at h hxs
        obtain ⟨-, hxs⟩ := List.forall_mem_cons.mp hxs
        by_cases hfirst : 0 < run.x1
        · obtain ⟨more, hmore⟩ := readRuns_black hfirst rfl (fun x hx => (hxs x hx).1) h
          rw [hsame] at hmore
          have hrun₀ := (List.cons.inj (List.append_cancel_left hmore)).1
          have hx1 : run.x1 = 0 := congrArg Run.x1 hrun₀
          omega
        · -- The run itself is read in white.
          have hx1 : run.x1 = 0 := by omega
          rw [hx1] at h hxs
          rw [Image.readRuns, Rows.round, if_neg (by simp), ok_bind] at h
          have hadvance : Position.advance ncol ⟨y + 1, 0, false⟩ 0 = ⟨y + 1, 0, true⟩ := by
            unfold Position.advance
            simp only [add_zero, Bool.not_false]
            rw [if_neg (by omega)]
          rw [hadvance, List.singleton_append, Image.readRuns, Rows.round, if_neg (by simp),
            ok_bind] at h
          obtain ⟨-, hxs⟩ := List.forall_mem_cons.mp hxs
          obtain ⟨more, hmore, hlast⟩ := readRuns_later (fun x hx => (hxs x hx).1) h
          rw [hsame] at hmore
          have hmem : run ∈ more := by
            rw [← List.append_cancel_left hmore]
            exact List.mem_cons_self
          have hprecedes := hlast run hmem
          unfold Position.advance Position.Precedes at hprecedes
          simp only at hprecedes
          split_ifs at hprecedes
          · change y + 1 + 1 < run.y ∨ y + 1 + 1 = run.y ∧ _ at hprecedes
            omega
          · change y + 1 < run.y ∨ y + 1 = run.y ∧ 0 + (run.x2 + 1 - 0) ≤ run.x1 at hprecedes
            omega
      · obtain ⟨k, hk⟩ : ∃ k, (run.y - y - 1).toNat = k + 1 := ⟨(run.y - y - 2).toNat, by omega⟩
        rw [hk, List.replicate_succ, List.cons_append, List.cons_append] at h hxs
        obtain ⟨-, hxs⟩ := List.forall_mem_cons.mp hxs
        obtain ⟨more, hmore⟩ := readRuns_black (by omega) rfl (fun x hx => (hxs x hx).1) h
        rw [hsame] at hmore
        exact hnext (congrArg Run.y (List.cons.inj (List.append_cancel_left hmore)).1)

/-- The reader finds the runs only if it is never out of step. -/
theorem clear_of_readRuns {rows : Rows} {res : Position × Rows} (hncol : 1 ≤ ncol)
    (hlimit : ncol < 0x4000) (hfollow : Follow nlin ncol prevy prevx2 runs) (hrows : rows.Enough)
    (h : Image.readRuns ncol (writes nlin ncol prevy prevx2 runs) ⟨prevy, prevx2, true⟩ rows =
      .ok res) (hsame : res.2.runs = rows.runs ++ runs) : Clear nlin ncol runs := by
  induction runs generalizing prevy prevx2 rows with
  | nil => exact fun r hr => absurd hr List.not_mem_nil
  | cons run runs ih =>
      obtain ⟨hline, hrun, -⟩ := hfollow.head
      obtain ⟨rows₁, hruns₁, hrows₁, hrest⟩ := (reads_writeRun hfollow).readRuns hrows
        (writes nlin ncol run.y (run.x2 + 1) runs)
      rw [writes, nextx2_eq hfollow, hrest] at h
      have hsame₁ : res.2.runs = rows₁.runs ++ runs := by
        rw [hsame, hruns₁, List.append_assoc]
        rfl
      by_cases hfull : run.x2 + 1 < ncol
      · rw [after, if_pos hfull] at h
        have hclear := ih hfollow.tail hrows₁ h hsame₁
        exact List.forall_mem_cons.mpr ⟨fun hlast => absurd hlast (by omega), hclear⟩
      · have hlast : run.x2 + 1 = ncol := by omega
        have htail := hfollow.tail
        rw [hlast] at h htail
        rw [after, if_neg (lt_irrefl ncol)] at h
        have hy : run.y + 1 = nlin := by
          by_contra hne
          exact readRuns_out_of_step hncol hlimit (by omega) htail h hsame₁
        refine List.forall_mem_cons.mpr ⟨fun _ => hy, fun r hr _ => ?_⟩
        have hinside := htail.inside r hr
        rcases htail.later r hr with hlt | ⟨heq, -⟩
        · omega
        · omega

/-! ## The loop of `rle-read-ubim` -/

/-- A pixel before the position. -/
def Position.Before (p : Position) (y x : ℤ) : Prop := y < p.n ∨ y = p.n ∧ x < p.c

/-- A pixel of a run. -/
def Covers (runs : List Run) (y x : ℤ) : Prop := ∃ r ∈ runs, r.y = y ∧ r.x1 ≤ x ∧ x ≤ r.x2

/-- A pixel of the length that is read. -/
def Position.Segment (p : Position) (len y x : ℤ) : Prop := y = p.n ∧ p.c ≤ x ∧ x < p.c + len

/-- The colour of the next pixels. -/
def Position.color (white black : ℤ) (p : Position) : ℤ := if p.white then white else black

theorem covers_append_blackRun {len y x : ℤ} :
    Covers (runs ++ blackRun p len) y x ↔ Covers runs y x ∨ p.white = false ∧ p.Segment len y x := by
  have happend : Covers (runs ++ blackRun p len) y x ↔ Covers runs y x ∨ Covers (blackRun p len) y x := by
    simp only [Covers, List.mem_append, or_and_right, exists_or]
  rw [happend]
  refine or_congr Iff.rfl ?_
  unfold Covers blackRun Position.Segment
  split_ifs with hblack
  · simp only [List.mem_singleton, exists_eq_left]
    rw [and_iff_right hblack.2]
    constructor <;> rintro ⟨hy, hx, hx'⟩ <;> exact ⟨hy.symm, hx, by omega⟩
  · simp only [List.not_mem_nil, false_and, exists_false, false_iff]
    rintro ⟨hwhite, -, hle, hlt⟩
    exact hblack ⟨by omega, hwhite⟩

/-- A round goes over the pixels of its length. -/
theorem before_advance {len y x : ℤ} (hlen : 0 ≤ len)
    (hx : 0 ≤ x ∧ x < ncol) :
    (p.advance ncol len).Before y x ↔ p.Before y x ∨ p.Segment len y x := by
  unfold Position.advance Position.Before Position.Segment
  split_ifs with hfull
  · change y < p.n + 1 ∨ y = p.n + 1 ∧ x < 0 ↔ _
    omega
  · change y < p.n ∨ y = p.n ∧ x < p.c + len ↔ _
    omega

/-- The pixels before the position have their colours. -/
structure Painted (white black nlin ncol : ℤ) (runs : List Run) (rez : Matrix) (p : Position) :
    Prop where
  height : rez.nlin = nlin
  width : rez.ncol = ncol
  column : 0 ≤ p.c ∧ p.c < ncol
  behind : ∀ y x, Covers runs y x → p.Before y x ∧ 0 ≤ x ∧ x < ncol
  black : ∀ y x, Covers runs y x → rez.pixel y x = byte black
  white : ∀ y x, 0 ≤ y → 0 ≤ x → x < ncol → p.Before y x → ¬Covers runs y x →
    rez.pixel y x = byte white

variable {white black : ℤ} {rez : Matrix}

/-- Nothing has been painted yet. -/
theorem painted_start (memory : ℤ → ℤ → UInt8) (hncol : 1 ≤ ncol) :
    Painted white black nlin ncol [] ⟨nlin, ncol, memory⟩ ⟨0, 0, true⟩ := by
  have hnone : ∀ y x, ¬Covers [] y x := by
    rintro y x ⟨r, hr, -⟩
    exact List.not_mem_nil hr
  refine ⟨rfl, rfl, ⟨le_rfl, hncol⟩, fun y x h => absurd h (hnone y x),
    fun y x h => absurd h (hnone y x), fun y x hy hx _ hp _ => ?_⟩
  change y < 0 ∨ y = 0 ∧ x < 0 at hp
  omega

theorem Matrix.round_ok {n c len color : ℤ} (hc : 0 ≤ c)
    (hfits : 0 < len → 0 ≤ n ∧ n < rez.nlin ∧ c + len ≤ rez.ncol) :
    ∃ rez', rez.round n c len color = .ok rez' ∧ rez'.nlin = rez.nlin ∧ rez'.ncol = rez.ncol ∧
      ∀ i j, rez'.pixel i j =
        if i = n ∧ c ≤ j ∧ j < c + len then byte color else rez.pixel i j := by
  unfold Matrix.round
  split_ifs with hlen
  · obtain ⟨hn, hn', hend⟩ := hfits hlen
    rw [Matrix.paint, if_neg (by omega), if_neg (by omega), if_neg (by omega), if_neg (by omega)]
    exact ⟨_, rfl, rfl, rfl, fun _ _ => rfl⟩
  · refine ⟨rez, rfl, rfl, rfl, fun i j => ?_⟩
    rw [if_neg (by omega)]

/-- **A round paints the pixels of its length.** -/
theorem Painted.round {len : ℤ} (h : Painted white black nlin ncol runs rez p) (hlen : 0 ≤ len)
    (hfits : 0 < len → 0 ≤ p.n ∧ p.n < nlin ∧ p.c + len ≤ ncol) :
    ∃ rez', rez.round p.n p.c len (p.color white black) = .ok rez' ∧
      Painted white black nlin ncol (runs ++ blackRun p len) rez' (p.advance ncol len) := by
  have hinside : 0 < len → 0 ≤ p.n ∧ p.n < rez.nlin ∧ p.c + len ≤ rez.ncol := by
    rw [h.height, h.width]
    exact hfits
  obtain ⟨rez', hround, hnlin, hncol, hpixel⟩ :=
    @Matrix.round_ok rez p.n p.c len (p.color white black) h.column.1 hinside
  have hbefore : ∀ {y x : ℤ}, 0 ≤ x ∧ x < ncol →
      ((p.advance ncol len).Before y x ↔ p.Before y x ∨ p.Segment len y x) :=
    before_advance hlen
  -- The pixels before the position are not painted again.
  have hkept : ∀ {y x : ℤ}, p.Before y x → rez'.pixel y x = rez.pixel y x := by
    intro y x hy
    unfold Position.Before at hy
    rw [hpixel, if_neg (by omega)]
  have hpainted : ∀ {y x : ℤ}, p.Segment len y x → rez'.pixel y x = byte (p.color white black) := by
    intro y x hy
    unfold Position.Segment at hy
    rw [hpixel, if_pos hy]
  refine ⟨rez', hround, hnlin.trans h.height, hncol.trans h.width, ?_, ?_, ?_, ?_⟩
  · have hcolumn := h.column
    unfold Position.advance
    split_ifs
    · exact ⟨le_rfl, by change 0 < ncol; omega⟩
    · change 0 ≤ p.c + len ∧ p.c + len < ncol
      omega
  · intro y x hcovers
    rcases covers_append_blackRun.mp hcovers with hold | ⟨-, hsegment⟩
    · obtain ⟨hp, hx⟩ := h.behind y x hold
      exact ⟨(hbefore hx).mpr (.inl hp), hx⟩
    · have hcolumn := h.column
      have hx : 0 ≤ x ∧ x < ncol := by
        unfold Position.Segment at hsegment
        have hend := (hfits (by omega)).2.2
        omega
      exact ⟨(hbefore hx).mpr (.inr hsegment), hx⟩
  · intro y x hcovers
    rcases covers_append_blackRun.mp hcovers with hold | ⟨hblack, hsegment⟩
    · rw [hkept (h.behind y x hold).1, h.black y x hold]
    · rw [hpainted hsegment, Position.color, hblack, if_neg Bool.false_ne_true]
  · intro y x hy hx hx' hp hnot
    rw [covers_append_blackRun, not_or] at hnot
    rcases (hbefore ⟨hx, hx'⟩).mp hp with hp | hsegment
    · rw [hkept hp, h.white y x hy hx hx' hp hnot.1]
    · have hwhite : p.white = true := by
        by_contra hfalse
        exact hnot.2 ⟨Bool.eq_false_iff.mpr hfalse, hsegment⟩
      rw [hpainted hsegment, Position.color, if_pos hwhite]

/-- The colour of the next round. -/
theorem color_advance (p : Position) (len : ℤ) :
    (p.advance ncol len).color white black =
      if ncol ≤ p.c + len then white
      else if p.color white black = white then black else white := by
  unfold Position.advance Position.color
  split_ifs <;> simp_all

/-- The loop paints the image. -/
theorem Reads.readUbim (h : Reads nlin ncol p xs runs' q)
    (hpainted : Painted white black nlin ncol runs rez p) :
    ∃ rez', Image.readUbim white black xs p.n p.c (p.color white black) rez = .ok (q.n, rez') ∧
      Painted white black nlin ncol (runs ++ runs') rez' q := by
  induction h generalizing runs rez with
  | nil =>
      rw [List.append_nil]
      exact ⟨rez, rfl, hpainted⟩
  | @cons p q x xs runs' hx hfits _ ih =>
      obtain ⟨rez₁, hround, hpainted₁⟩ := hpainted.round hx hfits
      obtain ⟨rez', hread, hpainted'⟩ := ih hpainted₁
      rw [List.append_assoc] at hpainted'
      refine ⟨rez', ?_, hpainted'⟩
      rw [color_advance] at hread
      rw [Image.readUbim, hround, ok_bind]
      simp only [hpainted₁.width]
      unfold Position.advance at hread
      split_ifs at hread ⊢ <;> exact hread

/-! ## Files -/

/-- The file is read back by both readers. -/
structure RoundTrips (image : ℤ → ℤ → Bool) (nlin ncol : ℤ) (runs : List Run) : Prop where
  readRuns : rleReadRuns (rleWriteRuns runs nlin ncol) = .ok (runs, nlin, ncol)
  readUbim : ∀ memory white black, ∃ rez,
    rleReadUbim memory (rleWriteRuns runs nlin ncol) white black = .ok rez ∧
      rez.nlin = nlin ∧ rez.ncol = ncol ∧ ∀ y x, 0 ≤ y → y < nlin → 0 ≤ x → x < ncol →
        rez.pixel y x = byte (if image y x then black else white)

variable {image : ℤ → ℤ → Bool}

theorem MaximalRuns.follow (h : MaximalRuns image nlin ncol runs) (hnlin : 1 ≤ nlin)
    (hncol : 1 ≤ ncol) : Follow nlin ncol 0 0 runs := by
  refine ⟨h.inside, h.ordered, fun r hr => ?_, by omega, by omega⟩
  have hinside := h.inside r hr
  omega

/-- The runs that go up to the last column. -/
theorem MaximalRuns.clear_iff (h : MaximalRuns image nlin ncol runs) (hncol : 1 ≤ ncol) :
    Clear nlin ncol runs ↔ ∀ y, 0 ≤ y → y + 1 < nlin → image y (ncol - 1) = false := by
  constructor
  · intro hclear y hy hlt
    rw [Bool.eq_false_iff]
    intro hblack
    obtain ⟨r, hr, rfl, -, hle⟩ :=
      (h.black y (ncol - 1) hy (by omega) (by omega) (by omega)).mp hblack
    have hinside := h.inside r hr
    have hlast := hclear r hr (by omega)
    omega
  · intro himage r hr hlast
    obtain ⟨hy, hlt, hx1, hle, -⟩ := h.inside r hr
    by_contra hne
    have hblack := (h.black r.y (ncol - 1) hy hlt (by omega) (by omega)).mpr
      ⟨r, hr, rfl, by omega, by omega⟩
    rw [himage r.y hy (by omega)] at hblack
    exact Bool.false_ne_true hblack

theorem lengths_writes (h : MaximalRuns image nlin ncol runs) (hnlin : 1 ≤ nlin)
    (hncol : 1 ≤ ncol) (hlimit : ncol < 0x4000) :
    lengths ((writes nlin ncol 0 0 runs).flatMap writeRle) = writes nlin ncol 0 0 runs :=
  lengths_flatMap (writes_bounds hlimit (h.follow hnlin hncol))

/-- What is read back has no runs that bring the reader out of step. -/
theorem RoundTrips.clear (hround : RoundTrips image nlin ncol runs)
    (h : MaximalRuns image nlin ncol runs) (hnlin : 1 ≤ nlin) (hncol : 1 ≤ ncol)
    (hlimit : ncol < 0x4000) : nlin < 2147483648 ∧ Clear nlin ncol runs := by
  have hlengths := lengths_writes h hnlin hncol hlimit
  have hcol : intCast ncol = ncol := intCast_of_inInt ⟨by omega, by omega⟩
  have hruns := hround.readRuns
  rw [rleReadRuns, rleWriteRuns, readHeader_header, ok_bind] at hruns
  simp only [hlengths] at hruns
  obtain ⟨⟨p, rows⟩, hread, hruns⟩ := bind_ok.mp hruns
  simp only at hruns
  split_ifs at hruns
  obtain ⟨hsame, hlin, -⟩ := by simpa only [Except.ok.injEq, Prod.mk.injEq] using hruns
  have hint := inInt_intCast nlin
  rw [hlin] at hint hread
  rw [hcol] at hread
  exact ⟨hint.2, clear_of_readRuns hncol hlimit (h.follow hnlin hncol)
    ⟨by change 1 ≤ 2 * nlin; omega, by change ((0 : ℕ) : ℤ) ≤ 2 * nlin; omega⟩ hread hsame⟩

/-- **A file is read back** exactly when only the last line may end in black, and the number of
lines is an `int`. -/
theorem roundTrips_iff (h : MaximalRuns image nlin ncol runs) (hnlin : 1 ≤ nlin)
    (hncol : 1 ≤ ncol) (hlimit : ncol < 0x4000) :
    RoundTrips image nlin ncol runs ↔
      nlin < 2147483648 ∧ ∀ y, 0 ≤ y → y + 1 < nlin → image y (ncol - 1) = false := by
  rw [← h.clear_iff hncol]
  constructor
  · exact fun hround => hround.clear h hnlin hncol hlimit
  · rintro ⟨hlin, hclear⟩
    have hfollow := h.follow hnlin hncol
    have hlengths := lengths_writes h hnlin hncol hlimit
    have hcol : intCast ncol = ncol := intCast_of_inInt ⟨by omega, by omega⟩
    have hcast : intCast nlin = nlin := intCast_of_inInt ⟨by omega, hlin⟩
    obtain ⟨q, hq, hreads⟩ := reads_writes hfollow hclear
    constructor
    · have henough : Rows.Enough ⟨[], 2 * nlin⟩ :=
        ⟨by change 1 ≤ 2 * nlin; omega, by change ((0 : ℕ) : ℤ) ≤ 2 * nlin; omega⟩
      obtain ⟨rows, hruns, -, hread⟩ := hreads.readRuns henough []
      rw [List.append_nil, readRuns] at hread
      rw [rleReadRuns, rleWriteRuns, readHeader_header, ok_bind]
      simp only [hlengths, hcast, hcol]
      rw [hread, ok_bind]
      simp only [hq, ne_eq, not_true_eq_false, if_false, hruns, List.nil_append]
    · intro memory white black
      have hstart : Painted white black nlin ncol [] ⟨nlin, ncol, memory⟩ ⟨0, 0, true⟩ :=
        painted_start memory hncol
      obtain ⟨rez, hread, hpainted⟩ := hreads.readUbim hstart
      rw [List.nil_append] at hpainted
      refine ⟨rez, ?_, hpainted.height, hpainted.width, fun y x hy hlt hx hx' => ?_⟩
      · rw [rleReadUbim, rleWriteRuns, readHeader_header, ok_bind]
        simp only [hlengths, hcast, hcol]
        rw [Position.color, if_pos rfl] at hread
        rw [hread, ok_bind]
        simp only [hq, ne_eq, not_true_eq_false, if_false]
      · have hblack := h.black y x hy hlt hx hx'
        split_ifs with himage
        · exact hpainted.black y x (hblack.mp himage)
        · exact hpainted.white y x hy hx hx' (.inl (by omega)) fun hcovers =>
            himage (hblack.mpr hcovers)

/-- The image with one black pixel in its corner. -/
def corner (y x : ℤ) : Bool := decide (y = 0 ∧ x = 0)

/-- The runs of the corner, in an image of two lines. -/
theorem maximalRuns_corner {ncol : ℤ} (hncol : 1 ≤ ncol) :
    MaximalRuns corner 2 ncol [⟨0, 0, 0⟩] := by
  refine ⟨?_, List.pairwise_singleton _ _, fun y x _ _ _ _ => ?_⟩
  · rw [List.forall_mem_singleton]
    exact ⟨le_rfl, by decide, le_rfl, le_rfl, hncol⟩
  · rw [corner, decide_eq_true_eq]
    simp only [List.mem_singleton, exists_eq_left]
    omega

theorem roundTrips_corner : RoundTrips corner 2 2 [⟨0, 0, 0⟩] := by
  refine (roundTrips_iff (maximalRuns_corner (by decide)) (by decide) (by decide) (by decide)).mpr
    ⟨by decide, fun y hy hlt => ?_⟩
  obtain rfl : y = 0 := by omega
  decide

/-- **A line that ends in black** spoils the next one. -/
theorem not_roundTrips_column :
    MaximalRuns corner 2 1 [⟨0, 0, 0⟩] ∧ ¬RoundTrips corner 2 1 [⟨0, 0, 0⟩] := by
  have hruns : MaximalRuns corner 2 1 [⟨0, 0, 0⟩] := maximalRuns_corner le_rfl
  refine ⟨hruns, fun hround => ?_⟩
  obtain ⟨-, hclear⟩ := hround.clear hruns (by decide) (by decide) (by decide)
  exact absurd (hclear ⟨0, 0, 0⟩ List.mem_cons_self rfl) (by decide)

end Lush.Image
