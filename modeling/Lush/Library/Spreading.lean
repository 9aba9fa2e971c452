import Mathlib

/-!
# Writing elements to arrays

Elements are written one after the other (`foldl_write`), or each one at the next place of
its code (`foldl_spread`).  The second loop fills a segment for each code with the elements
that have it, when the segments do not meet.  They do not when each code starts after the
elements of the smaller ones (`apart_starts`), and these places are the sums of the numbers
of the elements with each code (`foldl_tally`, `foldl_accumulate`).
-/

namespace Lush.Spreading

variable {α : Type*}

/-- The elements of an array from `start` to before `stop`. -/
def segment (a : ℕ → α) (start stop : ℕ) : List α := (List.range' start (stop - start)).map a

/-- An element is written at the next place. -/
def write (state : ℕ × (ℕ → α)) (a : α) : ℕ × (ℕ → α) :=
  (state.1 + 1, Function.update state.2 state.1 a)

/-- An element is written at the next place of its code. -/
def spread (code : α → ℕ) (state : (ℕ → ℕ) × (ℕ → α)) (a : α) : (ℕ → ℕ) × (ℕ → α) :=
  (Function.update state.1 (code a) (state.1 (code a) + 1),
    Function.update state.2 (state.1 (code a)) a)

variable {a b : ℕ → α} {start stop pos : ℕ} {l : List α}

theorem segment_congr (h : ∀ p, start ≤ p → p < stop → a p = b p) :
    segment a start stop = segment b start stop := by
  refine List.map_congr_left fun p hp => ?_
  obtain ⟨hle, hlt⟩ := List.mem_range'_1.mp hp
  exact h p hle (by omega)

theorem segment_cons (h : start < stop) :
    segment a start stop = a start :: segment a (start + 1) stop := by
  have hlen : stop - start = stop - (start + 1) + 1 := by omega
  rw [segment, segment, hlen, List.range'_succ, List.map_cons]

theorem segment_self (a : ℕ → α) (start : ℕ) : segment a start start = [] := by
  rw [segment, Nat.sub_self]
  rfl

theorem length_segment (a : ℕ → α) (start stop : ℕ) :
    (segment a start stop).length = stop - start := by
  rw [segment, List.length_map, List.length_range']

theorem segment_append {mid : ℕ} (hstart : start ≤ mid) (hstop : mid ≤ stop) :
    segment a start mid ++ segment a mid stop = segment a start stop := by
  have hlen : stop - start = (mid - start) + (stop - mid) := by omega
  have hmid : start + (mid - start) = mid := Nat.add_sub_of_le hstart
  rw [segment, segment, segment, hlen, ← List.map_append, ← List.range'_append_1, hmid]

/-- Segments that follow each other. -/
theorem flatMap_segment {ptr : ℕ → ℕ} {n : ℕ} (h : ∀ i < n, ptr i ≤ ptr (i + 1)) :
    (List.range n).flatMap (fun i => segment a (ptr i) (ptr (i + 1))) =
      segment a (ptr 0) (ptr n) ∧ ptr 0 ≤ ptr n := by
  induction n with
  | zero => exact ⟨(segment_self a _).symm, le_rfl⟩
  | succ n ih =>
      obtain ⟨hseg, hle⟩ := ih fun i hi => h i (hi.trans n.lt_succ_self)
      have hlast := h n n.lt_succ_self
      rw [List.range_succ, List.flatMap_append, hseg, List.flatMap_singleton]
      exact ⟨segment_append hle hlast, hle.trans hlast⟩

theorem segment_inj {p : ℕ} (h : segment a start stop = segment b start stop) (hp : start ≤ p)
    (hlt : p < stop) : a p = b p := by
  have hmem : p ∈ List.range' start (stop - start) := List.mem_range'_1.mpr ⟨hp, by omega⟩
  exact List.map_inj_left.mp h p hmem

/-- **Elements that are written one after the other** are a segment, and what was before it
stays. -/
theorem foldl_write (l : List α) (pos : ℕ) (out : ℕ → α) :
    (l.foldl write (pos, out)).1 = pos + l.length ∧
      segment (l.foldl write (pos, out)).2 pos (pos + l.length) = l ∧
      ∀ p < pos, (l.foldl write (pos, out)).2 p = out p := by
  induction l generalizing pos out with
  | nil => exact ⟨rfl, segment_self _ _, fun _ _ => rfl⟩
  | cons a l ih =>
      obtain ⟨hpos, hseg, hframe⟩ := ih (pos + 1) (Function.update out pos a)
      have hlen : pos + (a :: l).length = pos + 1 + l.length := by
        rw [List.length_cons]
        omega
      rw [List.foldl_cons, hlen]
      refine ⟨hpos, ?_, fun p hp => ?_⟩
      · rw [segment_cons (by omega)]
        refine congrArg₂ List.cons ?_ hseg
        exact (hframe pos (Nat.lt_succ_self pos)).trans (Function.update_self ..)
      · exact (hframe p (by omega)).trans (Function.update_of_ne (by omega) ..)

/-- The segments of different codes do not meet. -/
def Apart (code : α → ℕ) (cursor : ℕ → ℕ) (l : List α) : Prop :=
  ∀ c d, c ≠ d → ∀ p, cursor c ≤ p → p < cursor c + l.countP (code · = c) →
    ¬(cursor d ≤ p ∧ p < cursor d + l.countP (code · = d))

/-- **Elements that are written at the places of their codes** fill the segments of the
codes, and everything else stays. -/
theorem foldl_spread {code : α → ℕ} {cursor : ℕ → ℕ} (out : ℕ → α) (h : Apart code cursor l) :
    (∀ c, segment (l.foldl (spread code) (cursor, out)).2 (cursor c)
      (cursor c + l.countP (code · = c)) = l.filter (code · = c)) ∧
    ∀ p, (∀ c, cursor c ≤ p → ¬p < cursor c + l.countP (code · = c)) →
      (l.foldl (spread code) (cursor, out)).2 p = out p := by
  induction l generalizing cursor out with
  | nil => exact ⟨fun c => segment_self _ _, fun _ _ => rfl⟩
  | cons a l ih =>
      set cursor' := Function.update cursor (code a) (cursor (code a) + 1) with hcursor'
      -- The segment of the code of `a` loses its first place, the others stay.
      have hself : cursor' (code a) = cursor (code a) + 1 := Function.update_self ..
      have hother : ∀ c, c ≠ code a → cursor' c = cursor c := fun c hc =>
        Function.update_of_ne hc ..
      have hcount : (a :: l).countP (code · = code a) = l.countP (code · = code a) + 1 :=
        List.countP_cons_of_pos (by simp)
      have hcount' : ∀ c, c ≠ code a → (a :: l).countP (code · = c) = l.countP (code · = c) :=
        fun c hc => List.countP_cons_of_neg (by simpa using Ne.symm hc)
      have hwithin : ∀ c p, cursor' c ≤ p → p < cursor' c + l.countP (code · = c) →
          cursor c ≤ p ∧ p < cursor c + (a :: l).countP (code · = c) := by
        intro c p hle hlt
        by_cases hc : c = code a
        · subst hc
          rw [hself] at hle hlt
          rw [hcount]
          omega
        · rw [hother c hc] at hle hlt
          rw [hcount' c hc]
          exact ⟨hle, hlt⟩
      have hapart : Apart code cursor' l := by
        intro c d hcd p hle hlt hd
        obtain ⟨hle', hlt'⟩ := hwithin c p hle hlt
        exact h c d hcd p hle' hlt' (hwithin d p hd.1 hd.2)
      obtain ⟨hseg, hframe⟩ := ih (Function.update out (cursor (code a)) a) hapart
      have hrun : (a :: l).foldl (spread code) (cursor, out) =
          l.foldl (spread code) (cursor', Function.update out (cursor (code a)) a) := rfl
      have hplace : cursor (code a) < cursor (code a) + (a :: l).countP (code · = code a) := by
        omega
      rw [hrun]
      refine ⟨fun c => ?_, fun p hp => ?_⟩
      · by_cases hc : c = code a
        · subst hc
          rw [segment_cons hplace, List.filter_cons_of_pos (by simp)]
          have hfirst : (l.foldl (spread code)
              (cursor', Function.update out (cursor (code a)) a)).2 (cursor (code a)) = a := by
            rw [hframe, Function.update_self]
            intro c hle hlt
            obtain ⟨hle', hlt'⟩ := hwithin c _ hle hlt
            by_cases hc : c = code a
            · subst hc
              rw [hself] at hle
              omega
            · exact h c (code a) hc _ hle' hlt' ⟨le_rfl, hplace⟩
          have hrest := hseg (code a)
          rw [hself] at hrest
          rw [hfirst, hcount, ← hrest]
          congr 2
          omega
        · rw [List.filter_cons_of_neg (by simpa using Ne.symm hc), ← hseg c, hother c hc,
            hcount' c hc]
      · rw [hframe p fun c hle hlt => hp c (hwithin c p hle hlt).1 (hwithin c p hle hlt).2]
        refine Function.update_of_ne (fun heq => ?_) ..
        subst heq
        exact hp (code a) le_rfl hplace

/-! ## Where the codes start -/

variable {code : α → ℕ}

/-- The elements with each code are counted. -/
theorem foldl_tally (l : List α) (t : ℕ → ℕ) (c : ℕ) :
    l.foldl (fun t a => Function.update t (code a) (t (code a) + 1)) t c =
      t c + l.countP (code · = c) := by
  induction l generalizing t with
  | nil => rfl
  | cons a l ih =>
      rw [List.foldl_cons, ih, Function.update_apply]
      by_cases hc : c = code a
      · rw [if_pos hc, List.countP_cons_of_pos (by simpa using hc.symm), hc]
        omega
      · rw [if_neg hc, List.countP_cons_of_neg (by simpa using Ne.symm hc)]

/-- Each place gets the sum of what was up to it. -/
theorem foldl_accumulate (t : ℕ → ℕ) (n c : ℕ) :
    (List.range' 1 n).foldl (fun t j => Function.update t j (t j + t (j - 1))) t c =
      if c ≤ n then ∑ d ∈ Finset.range (c + 1), t d else t c := by
  induction n generalizing c with
  | zero =>
      rw [List.range'_zero, List.foldl_nil]
      split_ifs with hc
      · rw [Nat.le_zero.mp hc, Finset.sum_range_one]
      · rfl
  | succ n ih =>
      rw [List.range'_1_concat, List.foldl_append, List.foldl_cons, List.foldl_nil,
        Function.update_apply]
      by_cases hc : c = 1 + n
      · subst hc
        have hprev : 1 + n - 1 = n := Nat.add_sub_cancel_left 1 n
        rw [if_pos rfl, if_pos (by omega), hprev, ih, ih, if_neg (by omega), if_pos le_rfl,
          Finset.sum_range_succ _ (1 + n), Nat.add_comm n 1, Nat.add_comm]
      · have hiff : c ≤ n + 1 ↔ c ≤ n := by omega
        rw [if_neg hc, ih]
        simp only [hiff]

theorem countP_lt_succ (l : List α) (c : ℕ) :
    l.countP (code · < c + 1) = l.countP (code · < c) + l.countP (code · = c) := by
  induction l with
  | nil => rfl
  | cons a l ih =>
      simp only [List.countP_cons, ih, decide_eq_true_eq]
      split_ifs <;> omega

/-- The numbers of elements add up to the place where a code starts. -/
theorem sum_countP_succ (l : List α) (c : ℕ) :
    ∑ d ∈ Finset.range (c + 1), l.countP (code · + 1 = d) = l.countP (code · < c) := by
  induction c with
  | zero => simp
  | succ c ih =>
      rw [Finset.sum_range_succ, ih, countP_lt_succ]
      simp only [Nat.add_right_cancel_iff]

theorem countP_lt_mono (code : α → ℕ) (l : List α) {c d : ℕ} (h : c ≤ d) :
    l.countP (code · < c) ≤ l.countP (code · < d) :=
  List.countP_mono_left fun a _ ha => by
    have ha := of_decide_eq_true ha
    exact decide_eq_true (by omega)

/-- **The segments do not meet** when each code starts after the smaller ones. -/
theorem apart_starts {cursor : ℕ → ℕ} {n : ℕ} (hcode : ∀ a ∈ l, code a < n)
    (hcursor : ∀ c < n, cursor c = l.countP (code · < c)) : Apart code cursor l := by
  have hlt : ∀ c p, cursor c ≤ p → p < cursor c + l.countP (code · = c) →
      l.countP (code · < c) ≤ p ∧ p < l.countP (code · < c + 1) := by
    intro c p hle hlt
    have hc : c < n := by
      by_contra hc
      have hnone : l.countP (code · = c) = 0 := by
        refine List.countP_eq_zero.mpr fun a ha => ?_
        have ha := hcode a ha
        simp only [decide_eq_true_eq]
        omega
      omega
    rw [countP_lt_succ, ← hcursor c hc]
    exact ⟨hle, hlt⟩
  intro c d hcd p hle hlt' hd
  obtain ⟨hc₁, hc₂⟩ := hlt c p hle hlt'
  obtain ⟨hd₁, hd₂⟩ := hlt d p hd.1 hd.2
  rcases Nat.lt_or_gt_of_ne hcd with h | h
  · refine lt_irrefl p ?_
    calc p < l.countP (code · < c + 1) := hc₂
      _ ≤ l.countP (code · < d) := countP_lt_mono code l h
      _ ≤ p := hd₁
  · refine lt_irrefl p ?_
    calc p < l.countP (code · < d + 1) := hd₂
      _ ≤ l.countP (code · < c) := countP_lt_mono code l h
      _ ≤ p := hc₁

end Lush.Spreading
