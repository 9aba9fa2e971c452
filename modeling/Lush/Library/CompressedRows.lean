import Mathlib

/-!
# Compressed rows

Every row has a code below `p`.  An index of the rows by their codes is built in two
passes: the rows of every code are counted, which gives the place where each code
starts, and then every row is put at the next free place of its code.  The rows of a
code are the part of the index between its start and the next one, in ascending order
(`slice_scatter`).

All accesses are checked, and the operations are `none` when one of them is outside.
-/

namespace Lush.CompressedRows

/-! ## The passes -/

/-- `a[i] = v`. -/
def store (a : List ℕ) (i v : ℕ) : Option (List ℕ) :=
  if i < a.length then some (a.set i v) else none

/-- The first pass: the rows of every code are counted. -/
def tally (codes : List ℕ) (n : ℕ) (counts : List ℕ) : Option (List ℕ) :=
  (List.range n).foldlM (fun counts i => do
    let c ← codes[i]?
    let k ← counts[c]?
    store counts c (k + 1)) counts

/-- The sums of the counts. -/
def starts (counts : List ℕ) (p : ℕ) (offsets : List ℕ) : Option (List ℕ) :=
  (List.range p).foldlM (fun offsets c => do
    let o ← offsets[c]?
    let k ← counts[c]?
    store offsets (c + 1) (o + k)) offsets

/-- The first `p` elements are copied. -/
def copy (a : List ℕ) (p : ℕ) (b : List ℕ) : Option (List ℕ) :=
  (List.range p).foldlM (fun b c => do
    let o ← a[c]?
    store b c o) b

/-- The second pass: every row goes to the place that its code has come to. -/
def scatter (codes : List ℕ) (n : ℕ) (pos rows : List ℕ) : Option (List ℕ × List ℕ) :=
  (List.range n).foldlM (fun s i => do
    let c ← codes[i]?
    let k ← s.1[c]?
    let rows ← store s.2 k i
    let pos ← store s.1 c (k + 1)
    pure (pos, rows)) (pos, rows)

/-- The elements from `a` up to `b`. -/
def slice (rows : List ℕ) (a b : ℕ) : Option (List ℕ) :=
  (List.range' a (b - a)).mapM (rows[·]?)

/-! ## The rows of a code -/

/-- The rows of a code among the first `n`. -/
def rowsOf (codes : List ℕ) (c n : ℕ) : List ℕ :=
  (List.range n).filter fun i => codes[i]? = some c

/-- The number of rows of smaller codes. -/
def start (codes : List ℕ) (n c : ℕ) : ℕ :=
  ∑ b ∈ Finset.range c, (rowsOf codes b n).length

variable {codes : List ℕ} {n p : ℕ}

theorem rowsOf_succ (codes : List ℕ) (c n : ℕ) :
    rowsOf codes c (n + 1) = rowsOf codes c n ++ if codes[n]? = some c then [n] else [] := by
  rw [rowsOf, List.range_succ, List.filter_append, ← rowsOf]
  congr 1
  split_ifs with h
  · exact List.filter_cons_of_pos (by simpa using h)
  · exact List.filter_cons_of_neg (by simpa using h)

theorem rowsOf_length_mono (codes : List ℕ) (c : ℕ) {i : ℕ} (h : i ≤ n) :
    (rowsOf codes c i).length ≤ (rowsOf codes c n).length := by
  induction n, h using Nat.le_induction with
  | base => exact le_rfl
  | succ n _ ih =>
      rw [rowsOf_succ, List.length_append]
      omega

/-- A row takes a place of its code. -/
theorem rowsOf_length_lt {c i : ℕ} (hi : i < n) (hc : codes[i]? = some c) :
    (rowsOf codes c i).length < (rowsOf codes c n).length := by
  refine lt_of_lt_of_le ?_ (rowsOf_length_mono codes c (Nat.succ_le_of_lt hi))
  rw [rowsOf_succ, if_pos hc, List.length_append]
  exact Nat.lt_succ_self _

theorem start_succ (codes : List ℕ) (n c : ℕ) :
    start codes n (c + 1) = start codes n c + (rowsOf codes c n).length :=
  Finset.sum_range_succ ..

theorem start_mono (codes : List ℕ) (n : ℕ) {b c : ℕ} (h : b ≤ c) :
    start codes n b ≤ start codes n c := by
  induction c, h using Nat.le_induction with
  | base => exact le_rfl
  | succ c _ ih =>
      rw [start_succ]
      omega

/-- Every row has one code. -/
theorem start_eq (hcodes : ∀ i < n, ∃ c < p, codes[i]? = some c) : start codes n p = n := by
  unfold start
  induction n with
  | zero => simp [rowsOf]
  | succ n ih =>
      obtain ⟨c, hc, hn⟩ := hcodes n (Nat.lt_succ_self n)
      have hlen : ∀ b, (rowsOf codes b (n + 1)).length =
          (rowsOf codes b n).length + if b = c then 1 else 0 := by
        intro b
        rw [rowsOf_succ, hn, List.length_append]
        by_cases hb : b = c
        · simp [hb]
        · have hne : ¬(some c = some b) := fun heq => hb (Option.some.inj heq).symm
          simp [hb, hne]
      simp only [hlen, Finset.sum_add_distrib]
      rw [ih fun i hi => hcodes i (hi.trans (Nat.lt_succ_self n)), Finset.sum_ite_eq',
        if_pos (Finset.mem_range.mpr hc)]

/-! ## Loops -/

/-- What every round of a loop keeps holds after the last one. -/
theorem foldlM_range {σ : Type*} {f : σ → ℕ → Option σ} {I : ℕ → σ → Prop} {s : σ} (h0 : I 0 s)
    (hstep : ∀ i s, i < n → I i s → ∃ s', f s i = some s' ∧ I (i + 1) s') :
    ∃ s', (List.range n).foldlM f s = some s' ∧ I n s' := by
  induction n with
  | zero => exact ⟨s, rfl, h0⟩
  | succ n ih =>
      obtain ⟨s1, hrun, h1⟩ := ih fun i s hi => hstep i s (hi.trans (Nat.lt_succ_self n))
      obtain ⟨s', hlast, h'⟩ := hstep n s1 (Nat.lt_succ_self n) h1
      refine ⟨s', ?_, h'⟩
      rw [List.range_succ, List.foldlM_append, hrun]
      simp [hlast]

theorem store_eq {a : List ℕ} {i : ℕ} (hi : i < a.length) (v : ℕ) : store a i v = some (a.set i v) :=
  if_pos hi

theorem tally_ok (hcodes : ∀ i < n, ∃ c < p, codes[i]? = some c) {counts : List ℕ}
    (hlen : p ≤ counts.length) (hzero : ∀ c < counts.length, counts[c]? = some 0) :
    ∃ counts', tally codes n counts = some counts' ∧
      ∀ c < p, counts'[c]? = some (rowsOf codes c n).length := by
  obtain ⟨counts', hrun, hlen', hcounts⟩ : ∃ counts', tally codes n counts = some counts' ∧
      counts'.length = counts.length ∧
      ∀ c < counts.length, counts'[c]? = some (rowsOf codes c n).length := by
    refine foldlM_range (I := fun i (a : List ℕ) => a.length = counts.length ∧
      ∀ c < counts.length, a[c]? = some (rowsOf codes c i).length) ⟨rfl, hzero⟩ ?_
    rintro i a hi ⟨ha, hcount⟩
    obtain ⟨c, hc, hci⟩ := hcodes i hi
    have hca : c < a.length := by omega
    refine ⟨a.set c ((rowsOf codes c i).length + 1), ?_, by simpa using ha, fun b hb => ?_⟩
    · simp [hci, hcount c (by omega), store_eq hca]
    · rw [rowsOf_succ, hci, List.getElem?_set]
      by_cases hbc : c = b
      · subst hbc
        simp [hca]
      · have hne : ¬(some c = some b) := fun heq => hbc (Option.some.inj heq)
        simp [hbc, hne, hcount b hb]
  exact ⟨counts', hrun, fun c hc => hcounts c (by omega)⟩

theorem starts_ok {counts offsets : List ℕ} (hlen : offsets.length = p + 1)
    (hzero : offsets[0]? = some 0) (hcounts : ∀ c < p, counts[c]? = some (rowsOf codes c n).length) :
    ∃ offsets', starts counts p offsets = some offsets' ∧
      ∀ c ≤ p, offsets'[c]? = some (start codes n c) := by
  obtain ⟨offsets', hrun, -, hoffsets⟩ : ∃ offsets', starts counts p offsets = some offsets' ∧
      offsets'.length = p + 1 ∧ ∀ c ≤ p, offsets'[c]? = some (start codes n c) := by
    refine foldlM_range (I := fun i (a : List ℕ) => a.length = p + 1 ∧
      ∀ c ≤ i, a[c]? = some (start codes n c)) ⟨hlen, fun c hc => ?_⟩ ?_
    · rw [Nat.le_zero.mp hc, hzero]
      rfl
    · rintro i a hi ⟨ha, hstart⟩
      have hia : i + 1 < a.length := by omega
      refine ⟨a.set (i + 1) (start codes n i + (rowsOf codes i n).length), ?_, by simpa using ha,
        fun c hc => ?_⟩
      · simp [hstart i le_rfl, hcounts i hi, store_eq hia]
      · rw [List.getElem?_set]
        by_cases hci : i + 1 = c
        · subst hci
          simp [hia, start_succ]
        · simp only [hci, if_false]
          exact hstart c (by omega)
  exact ⟨offsets', hrun, hoffsets⟩

theorem copy_ok {a b : List ℕ} (ha : p ≤ a.length) (hb : p ≤ b.length) :
    ∃ b', copy a p b = some b' ∧ b'.length = b.length ∧ ∀ c < p, b'[c]? = a[c]? := by
  refine foldlM_range (I := fun i (d : List ℕ) => d.length = b.length ∧ ∀ c < i, d[c]? = a[c]?)
    ⟨rfl, fun c hc => absurd hc (Nat.not_lt_zero c)⟩ ?_
  rintro i d hi ⟨hd, heq⟩
  have hid : i < d.length := by omega
  have hia : i < a.length := by omega
  refine ⟨d.set i a[i], ?_, by simpa using hd, fun c hc => ?_⟩
  · simp [List.getElem?_eq_getElem hia, store_eq hid]
  · rw [List.getElem?_set]
    by_cases hci : i = c
    · subst hci
      simp [hid, List.getElem?_eq_getElem hia]
    · simp only [hci, if_false]
      exact heq c (by omega)

/-- **Every row gets the next place of its code.** -/
theorem scatter_ok (hcodes : ∀ i < n, ∃ c < p, codes[i]? = some c) {pos rows : List ℕ}
    (hpos : pos.length = p) (hrows : rows.length = n)
    (hstart : ∀ c < p, pos[c]? = some (start codes n c)) :
    ∃ s', scatter codes n pos rows = some s' ∧ ∀ c < p, ∀ (k r : ℕ),
      (rowsOf codes c n)[k]? = some r → s'.2[start codes n c + k]? = some r := by
  obtain ⟨s', hrun, -, -, -, hplaces⟩ : ∃ s', scatter codes n pos rows = some s' ∧
      s'.1.length = p ∧ s'.2.length = n ∧
      (∀ c < p, s'.1[c]? = some (start codes n c + (rowsOf codes c n).length)) ∧
      ∀ c < p, ∀ (k r : ℕ), (rowsOf codes c n)[k]? = some r →
        s'.2[start codes n c + k]? = some r := by
    refine foldlM_range (I := fun i (s : List ℕ × List ℕ) => s.1.length = p ∧ s.2.length = n ∧
      (∀ c < p, s.1[c]? = some (start codes n c + (rowsOf codes c i).length)) ∧
      ∀ c < p, ∀ (k r : ℕ), (rowsOf codes c i)[k]? = some r →
        s.2[start codes n c + k]? = some r) ⟨hpos, hrows, ?_, ?_⟩ ?_
    · intro c hc
      rw [hstart c hc]
      rfl
    · intro c hc k r hk
      exact absurd hk (by simp [rowsOf])
    · rintro i ⟨pos, rows⟩ hi ⟨hpos, hrows, hnext, hplaces⟩
      obtain ⟨c, hc, hci⟩ := hcodes i hi
      have hlt := rowsOf_length_lt hi hci
      have hend : start codes n (c + 1) ≤ n := by
        have := start_mono codes n (Nat.succ_le_of_lt hc)
        rwa [start_eq hcodes] at this
      rw [start_succ] at hend
      set place := start codes n c + (rowsOf codes c i).length with hplace
      have hrow : place < rows.length := by simp only at hrows; omega
      have hcur : c < pos.length := by simp only at hpos; omega
      refine ⟨(pos.set c (place + 1), rows.set place i), ?_, by simpa using hpos,
        by simpa using hrows, fun b hb => ?_, fun b hb k r hk => ?_⟩
      · have hc' : pos[c]? = some place := hnext c hc
        simp [hci, hc', store_eq hrow, store_eq hcur]
      · simp only
        rw [rowsOf_succ, hci, List.getElem?_set]
        by_cases hbc : c = b
        · subst hbc
          simp [hcur, hplace, Nat.add_assoc]
        · have hne : ¬(some c = some b) := fun heq => hbc (Option.some.inj heq)
          simp only [hbc, if_false, hne, List.append_nil]
          exact hnext b hb
      · -- the places of different codes are apart
        have hkn : k < (rowsOf codes b n).length := by
          have := (List.getElem?_eq_some_iff.mp hk).1
          exact lt_of_lt_of_le this (rowsOf_length_mono codes b (Nat.succ_le_of_lt hi))
        simp only
        rw [List.getElem?_set]
        by_cases hbc : c = b
        · subst hbc
          rw [rowsOf_succ, if_pos hci] at hk
          rcases Nat.lt_or_ge k (rowsOf codes c i).length with hold | hnew
          · rw [List.getElem?_append_left hold] at hk
            rw [if_neg (by omega)]
            exact hplaces c hb k r hk
          · rw [List.getElem?_append_right hnew] at hk
            obtain ⟨hk0, hr⟩ := List.getElem?_eq_some_iff.mp hk
            have hk0' : k - (rowsOf codes c i).length < 1 := by simpa using hk0
            rw [if_pos (by omega), if_pos hrow, ← hr]
            simp
        · have hne : ¬(some c = some b) := fun heq => hbc (Option.some.inj heq)
          rw [rowsOf_succ, hci, if_neg hne, List.append_nil] at hk
          have hapart : place ≠ start codes n b + k := by
            have hb1 := start_succ codes n b
            have hc1 := start_succ codes n c
            rcases Nat.lt_or_gt_of_ne hbc with hlt' | hgt
            · have hle : start codes n (c + 1) ≤ start codes n b := start_mono codes n hlt'
              omega
            · have hle : start codes n (b + 1) ≤ start codes n c := start_mono codes n hgt
              omega
          rw [if_neg hapart]
          exact hplaces b hb k r hk
  exact ⟨s', hrun, hplaces⟩

theorem slice_eq {rows l : List ℕ} {a : ℕ}
    (h : ∀ k r, l[k]? = some r → rows[a + k]? = some r) : slice rows a (a + l.length) = some l := by
  rw [slice, Nat.add_sub_cancel_left]
  induction l generalizing a with
  | nil => rfl
  | cons r l ih =>
      have hrest : (List.range' (a + 1) l.length).mapM (rows[·]?) = some l := by
        refine ih fun k r' hk => ?_
        have := h (k + 1) r' (by simpa using hk)
        rwa [← Nat.add_assoc, Nat.add_right_comm] at this
      have hfirst : rows[a]? = some r := h 0 r rfl
      rw [List.length_cons, List.range'_succ, List.mapM_cons, hfirst, hrest]
      rfl

/-- **The index has the rows of every code, in ascending order.** -/
theorem slice_scatter (hcodes : ∀ i < n, ∃ c < p, codes[i]? = some c) {pos rows : List ℕ}
    (hpos : pos.length = p) (hrows : rows.length = n)
    (hstart : ∀ c < p, pos[c]? = some (start codes n c)) :
    ∃ s', scatter codes n pos rows = some s' ∧ ∀ c < p,
      slice s'.2 (start codes n c) (start codes n (c + 1)) = some (rowsOf codes c n) := by
  obtain ⟨s', hrun, hplaces⟩ := scatter_ok hcodes hpos hrows hstart
  refine ⟨s', hrun, fun c hc => ?_⟩
  rw [start_succ]
  exact slice_eq (hplaces c hc)

/-- **The passes, one after the other**, on matrices of the right sizes. -/
theorem index_ok (hcodes : ∀ i < n, ∃ c < p, codes[i]? = some c) :
    ∃ counts offsets0 offsets pos s,
      tally codes n (List.replicate (p + 1) 0) = some counts ∧
      store (List.replicate (p + 1) 0) 0 0 = some offsets0 ∧
      starts counts p offsets0 = some offsets ∧
      copy offsets p (List.replicate p 0) = some pos ∧
      scatter codes n pos (List.replicate n 0) = some s ∧
      ∀ c < p, ∃ a b, offsets[c]? = some a ∧ offsets[c + 1]? = some b ∧
        slice s.2 a b = some (rowsOf codes c n) := by
  have hzero : ∀ c < (List.replicate (p + 1) 0).length,
      (List.replicate (p + 1) 0)[c]? = some 0 := fun c hc =>
    List.getElem?_replicate_of_lt (by simpa using hc)
  have hlen : p ≤ (List.replicate (p + 1) 0).length := by simp
  obtain ⟨counts, htally, hcounts⟩ := tally_ok hcodes hlen hzero
  have hstore : store (List.replicate (p + 1) 0) 0 0 = some ((List.replicate (p + 1) 0).set 0 0) :=
    store_eq (by simp) 0
  have hlen0 : ((List.replicate (p + 1) 0).set 0 0).length = p + 1 := by simp
  have hzero0 : ((List.replicate (p + 1) 0).set 0 0)[0]? = some 0 := by simp
  obtain ⟨offsets, hstarts, hoffsets⟩ := starts_ok hlen0 hzero0 hcounts
  have hoffsets_len : p ≤ offsets.length := by
    have := (List.getElem?_eq_some_iff.mp (hoffsets p le_rfl)).1
    omega
  obtain ⟨pos, hcopy, hpos_len, hpos⟩ :=
    copy_ok hoffsets_len (List.length_replicate (n := p) (a := 0)).ge
  rw [List.length_replicate] at hpos_len
  have hpos' : ∀ c < p, pos[c]? = some (start codes n c) := fun c hc =>
    (hpos c hc).trans (hoffsets c hc.le)
  obtain ⟨s, hscatter, hslices⟩ := slice_scatter hcodes hpos_len List.length_replicate hpos'
  exact ⟨counts, _, offsets, pos, s, htally, hstore, hstarts, hcopy, hscatter, fun c hc =>
    ⟨_, _, hoffsets c hc.le, hoffsets (c + 1) hc, hslices c hc⟩⟩

end Lush.CompressedRows
