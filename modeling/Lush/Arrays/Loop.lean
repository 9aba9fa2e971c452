import Lush.Library.Strides

/-!
# The loop over all elements

`begin_idx_aloop1` and `end_idx_aloop1` visit the elements of an index with a counter for
every dimension.  After each visit the counters advance from the last dimension on, and a
dimension that is exhausted goes back by as much as it has advanced.  The loop visits
every element once, the last subscript moving fastest (`aloop_eq`).
-/

namespace Lush.Arrays

open Strides

/-- The variables of the loop: `_d_`, `_j_` and the offset. -/
structure Cursor where
  d : List ℤ
  j : ℤ
  ptr : ℤ

/-- The inner loop, which advances the counters.  The first argument bounds the number of
its rounds. -/
def advance (axes : List Axis) : ℕ → Cursor → Cursor
  | 0, c => c
  | rounds + 1, c =>
      if c.j < 0 ∨ axes.length ≤ c.j then c
      else
        let i := c.j.toNat
        let a := axes.getD i ⟨0, 0⟩
        let k := c.d.getD i 0 + 1
        if k < a.dim then advance axes rounds ⟨c.d.set i k, c.j + 1, c.ptr + a.mod⟩
        else advance axes rounds ⟨c.d.set i (-1), c.j - 1, c.ptr - a.dim * a.mod⟩

/-- No counter is visited more than twice. -/
def rounds (axes : List Axis) : ℕ := 2 * axes.length + 1

/-- The offsets that the loop visits, in at most so many rounds. -/
def aloopFrom (axes : List Axis) : ℕ → Cursor → Option (List ℤ)
  | 0, c => if c.j < 0 then some [] else none
  | n + 1, c =>
      if c.j < 0 then some []
      else (aloopFrom axes n (advance axes (rounds axes) { c with j := c.j - 1 })).map (c.ptr :: ·)

/-- The loop from the start: all counters are `0`. -/
def aloop (axes : List Axis) (n : ℕ) : Option (List ℤ) :=
  aloopFrom axes n ⟨List.replicate axes.length 0, axes.length, 0⟩

/-! ## One counter -/

variable {axes pre suf : List Axis} {a : Axis} {ps rest : List ℤ} {k ptr : ℤ}

theorem advance_stop (n : ℕ) {c : Cursor} (h : c.j < 0 ∨ axes.length ≤ c.j) :
    advance axes n c = c := by
  cases n with
  | zero => rfl
  | succ n => rw [advance, if_pos h]

/-- The counter at a dimension between the ones before and after it. -/
theorem advance_at (haxes : axes = pre ++ a :: suf) (hps : ps.length = pre.length) (n : ℕ) :
    advance axes (n + 1) ⟨ps ++ k :: rest, pre.length, ptr⟩ =
      if k + 1 < a.dim then
        advance axes n ⟨ps ++ (k + 1) :: rest, pre.length + 1, ptr + a.mod⟩
      else advance axes n ⟨ps ++ -1 :: rest, pre.length - 1, ptr - a.dim * a.mod⟩ := by
  have hlt : ¬((pre.length : ℤ) < 0 ∨ (axes.length : ℤ) ≤ pre.length) := by
    rw [haxes, List.length_append, List.length_cons]
    push_cast
    omega
  have haxis : axes.getD pre.length ⟨0, 0⟩ = a := by
    rw [haxes, List.getD_append_right _ _ _ _ le_rfl, Nat.sub_self]
    rfl
  have hcount : (ps ++ k :: rest).getD pre.length 0 = k := by
    rw [← hps, List.getD_append_right _ _ _ _ le_rfl, Nat.sub_self]
    rfl
  have hset (l : ℤ) : (ps ++ k :: rest).set pre.length l = ps ++ l :: rest := by
    rw [← hps, List.set_append_right _ _ le_rfl, Nat.sub_self]
    rfl
  rw [advance, if_neg hlt]
  simp only [Int.toNat_natCast, haxis, hcount, hset]

/-- Counters that were exhausted start anew. -/
theorem advance_up (haxes : axes = pre ++ suf) (hpos : Positive suf)
    (hps : ps.length = pre.length) {n : ℕ} (hn : suf.length ≤ n) :
    advance axes n ⟨ps ++ List.replicate suf.length (-1), pre.length, ptr⟩ =
      ⟨ps ++ List.replicate suf.length 0, axes.length, ptr + (suf.map Axis.mod).sum⟩ := by
  induction suf generalizing pre ps ptr n with
  | nil =>
      have hlen : axes.length = pre.length := by rw [haxes, List.append_nil]
      rw [advance_stop n (Or.inr (by simp [hlen]))]
      simp [hlen]
  | cons a suf ih =>
      obtain ⟨ha, hrest⟩ := positive_cons.mp hpos
      obtain ⟨m, rfl⟩ : ∃ m, n = m + 1 := ⟨n - 1, by simp at hn; omega⟩
      have hup := @ih (pre ++ [a]) (ps ++ [0]) (ptr + a.mod) (by rw [haxes, List.append_cons])
        hrest (by simp [hps]) m (by simpa using hn)
      rw [← List.append_cons, ← List.append_cons, List.length_append, List.length_singleton,
        Nat.cast_add, Nat.cast_one] at hup
      rw [List.length_cons, List.replicate_succ, List.replicate_succ, advance_at haxes hps,
        if_pos (by omega), neg_add_cancel, hup, List.map_cons, List.sum_cons, add_assoc]

/-! ## The whole loop -/

theorem aloopFrom_visit (n : ℕ) {c : Cursor} (h : 0 ≤ c.j) :
    aloopFrom axes (n + 1) c =
      (aloopFrom axes n (advance axes (rounds axes) { c with j := c.j - 1 })).map (c.ptr :: ·) := by
  rw [aloopFrom, if_neg (not_lt.mpr h)]

/-- **The dimensions from one on.**  When they are exhausted, the loop goes on with the
counter before them. -/
theorem aloopFrom_suffix (haxes : axes = pre ++ suf) (hpos : Positive suf)
    (hps : ps.length = pre.length) (n : ℕ) :
    aloopFrom axes (count suf + n) ⟨ps ++ List.replicate suf.length 0, axes.length, ptr⟩ =
      (aloopFrom axes n (advance axes (rounds axes - suf.length)
        ⟨ps ++ List.replicate suf.length (-1), pre.length - 1,
          ptr - (suf.map Axis.mod).sum⟩)).map ((offsets suf).map (ptr + ·) ++ ·) := by
  induction suf generalizing pre ps ptr n with
  | nil =>
      have hlen : axes.length = pre.length := by rw [haxes, List.append_nil]
      rw [count_nil, Nat.add_comm, aloopFrom_visit n (by simp)]
      simp [offsets, hlen]
  | cons a suf ih =>
      obtain ⟨ha, hrest⟩ := positive_cons.mp hpos
      obtain ⟨r, hr, hle⟩ : ∃ r, rounds axes - suf.length = r + 1 ∧ suf.length ≤ r := by
        refine ⟨rounds axes - (suf.length + 1), ?_, ?_⟩ <;>
        · rw [rounds, haxes, List.length_append, List.length_cons]
          omega
      have hr' : rounds axes - (suf.length + 1) = r := by omega
      have haxes' : axes = (pre ++ [a]) ++ suf := by rw [haxes, List.append_cons]
      -- the induction is on the values that the first counter still has to take
      have hloop : ∀ (m k : ℕ), k + (m + 1) = a.dim.toNat →
          aloopFrom axes ((m + 1) * count suf + n)
            ⟨ps ++ (k : ℤ) :: List.replicate suf.length 0, axes.length, ptr + k * a.mod⟩ =
          (aloopFrom axes n (advance axes r
            ⟨ps ++ -1 :: List.replicate suf.length (-1), pre.length - 1,
              ptr - (a.mod + (suf.map Axis.mod).sum)⟩)).map
            ((List.range' k (m + 1)).flatMap (fun (k : ℕ) =>
              (offsets suf).map (ptr + k * a.mod + ·)) ++ ·) := by
        intro m
        induction m with
        | zero =>
            intro k hk
            have hsub := @ih (pre ++ [a]) (ps ++ [(k : ℤ)]) (ptr + k * a.mod) haxes' hrest
              (by simp [hps]) n
            rw [← List.append_cons, ← List.append_cons, List.length_append, List.length_singleton,
              Nat.cast_add, Nat.cast_one, add_sub_cancel_right, hr, advance_at haxes hps,
              if_neg (by omega)] at hsub
            have hptr : ptr + k * a.mod - (suf.map Axis.mod).sum - a.dim * a.mod =
                ptr - (a.mod + (suf.map Axis.mod).sum) := by
              have hdim : a.dim = k + 1 := by omega
              rw [hdim]
              ring
            rw [hptr] at hsub
            simpa using hsub
        | succ m ihm =>
            intro k hk
            have hsub := @ih (pre ++ [a]) (ps ++ [(k : ℤ)]) (ptr + k * a.mod) haxes' hrest
              (by simp [hps]) ((m + 1) * count suf + n)
            have hup := @advance_up axes (pre ++ [a]) suf (ps ++ [(k : ℤ) + 1])
              (ptr + k * a.mod - (suf.map Axis.mod).sum + a.mod) haxes' hrest (by simp [hps]) r hle
            have hptr : ptr + k * a.mod - (suf.map Axis.mod).sum + a.mod + (suf.map Axis.mod).sum =
                ptr + ((k + 1 : ℕ) : ℤ) * a.mod := by
              push_cast
              ring
            rw [← List.append_cons, ← List.append_cons, List.length_append, List.length_singleton,
              Nat.cast_add, Nat.cast_one, hptr] at hup
            rw [← List.append_cons, ← List.append_cons, List.length_append, List.length_singleton,
              Nat.cast_add, Nat.cast_one, add_sub_cancel_right, hr, advance_at haxes hps,
              if_pos (by omega), hup] at hsub
            have hnext := ihm (k + 1) (by omega)
            rw [Nat.cast_add, Nat.cast_one] at hnext hsub
            rw [Nat.succ_mul (m + 1), Nat.add_comm _ (count suf), Nat.add_assoc, hsub, hnext,
              Option.map_map]
            refine congrArg (fun f => Option.map f _) ?_
            funext l
            simp [List.range'_succ]
      obtain ⟨m, hm⟩ : ∃ m, a.dim.toNat = m + 1 := ⟨a.dim.toNat - 1, by omega⟩
      have hfirst := hloop m 0 (by omega)
      rw [Nat.cast_zero, zero_mul, add_zero, ← hm] at hfirst
      rw [List.length_cons, List.replicate_succ, List.replicate_succ, count_cons, hr', hfirst,
        List.map_cons, List.sum_cons, offsets, List.map_flatMap, List.range_eq_range']
      simp only [List.map_map, Function.comp_def, add_assoc]

/-- **The loop visits every element once, the last subscript moving fastest.** -/
theorem aloop_eq (hpos : Positive axes) : aloop axes (count axes) = some (offsets axes) := by
  have hall := @aloopFrom_suffix axes [] axes [] 0 rfl hpos rfl 0
  rw [List.nil_append, List.nil_append, advance_stop _ (Or.inl (by simp))] at hall
  rw [aloop]
  refine hall.trans ?_
  simp [aloopFrom]

end Lush.Arrays
