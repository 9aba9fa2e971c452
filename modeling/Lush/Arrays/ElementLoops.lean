import Lush.Arrays.Loop

/-!
# The element loops

`begin_idx_aloop1` visits the elements of an index, and `begin_idx_aloop2` those of two
indexes side by side.  Here a loop that would not end gives no result, and the offsets are
computed in a ring, so that they may wrap around.
-/

namespace Lush.Arrays

open Strides

variable {R : Type} [CommRing R]

/-- The variables of the loop over one index. -/
structure Odometer (R : Type) where
  d : List ℤ
  j : ℤ
  ptr : R

/-- The inner loop, in at most so many rounds. -/
def carry (axes : List Axis) : ℕ → Odometer R → Option (Odometer R)
  | 0, _ => none
  | rounds + 1, c =>
      if c.j < 0 ∨ axes.length ≤ c.j then some c
      else
        let i := c.j.toNat
        let a := axes.getD i ⟨0, 0⟩
        let k := c.d.getD i 0 + 1
        if k < a.dim then carry axes rounds ⟨c.d.set i k, c.j + 1, c.ptr + a.mod⟩
        else carry axes rounds ⟨c.d.set i (-1), c.j - 1, c.ptr - a.dim * a.mod⟩

/-- `end_idx_aloop1`: the state before the next visit. -/
def following (axes : List Axis) (c : Odometer R) : Option (Odometer R) :=
  carry axes (rounds axes + 1) { c with j := c.j - 1 }

/-- The state before the first visit. -/
def Odometer.start (axes : List Axis) : Odometer R := ⟨List.replicate axes.length 0, axes.length, 0⟩

/-- The offsets that the loop over one index visits, in at most so many rounds. -/
def aloop1From (axes : List Axis) : ℕ → Odometer R → Option (List R)
  | 0, c => if c.j < 0 then some [] else none
  | n + 1, c =>
      if c.j < 0 then some []
      else do
        let c' ← following axes c
        let visits ← aloop1From axes n c'
        return c.ptr :: visits

/-- `begin_idx_aloop1`. -/
def aloop1 (axes : List Axis) (n : ℕ) : Option (List R) := aloop1From axes n (.start axes)

/-- The pairs of offsets that the loop over two indexes visits. -/
def aloop2From (axes axes' : List Axis) : ℕ → Odometer R → Odometer R → Option (List (R × R))
  | 0, c1, c2 => if c1.j < 0 ∨ c2.j < 0 then some [] else none
  | n + 1, c1, c2 =>
      if c1.j < 0 ∨ c2.j < 0 then some []
      else do
        let c1' ← following axes c1
        let c2' ← following axes' c2
        let visits ← aloop2From axes axes' n c1' c2'
        return (c1.ptr, c2.ptr) :: visits

/-- `begin_idx_aloop2`. -/
def aloop2 (axes axes' : List Axis) (n : ℕ) : Option (List (R × R)) :=
  aloop2From axes axes' n (.start axes) (.start axes')

/-! ## Subscripts -/

/-- The tuples of subscripts, the last one moving fastest. -/
def subscripts : List Axis → List (List ℤ)
  | [] => [[]]
  | a :: axes =>
      (List.range a.dim.toNat).flatMap fun (k : ℕ) => (subscripts axes).map ((k : ℤ) :: ·)

variable {axes axes' pre suf : List Axis} {a : Axis} {ps ks : List ℤ} {k : ℤ} {n : ℕ}

theorem mem_subscripts : ks ∈ subscripts axes ↔ InRange ks axes := by
  induction axes generalizing ks with
  | nil => simp [subscripts, InRange]
  | cons a axes ih =>
      simp only [subscripts, List.mem_flatMap, List.mem_range, List.mem_map]
      constructor
      · rintro ⟨k, hk, ks, hks, rfl⟩
        exact .cons ⟨by omega, by omega⟩ (ih.mp hks)
      · intro h
        cases h with
        | @cons k _ ks _ hk hks =>
            exact ⟨k.toNat, by omega, ks, ih.mpr hks, by rw [Int.toNat_of_nonneg hk.1]⟩

/-- The tuples are in lexicographic order. -/
theorem pairwise_subscripts (axes : List Axis) :
    (subscripts axes).Pairwise (List.Lex (· < ·)) := by
  induction axes with
  | nil => exact List.pairwise_singleton _ _
  | cons a axes ih =>
      rw [subscripts, List.pairwise_flatMap]
      constructor
      · intro k _
        rw [List.pairwise_map]
        exact ih.imp fun h => .cons h
      · refine List.pairwise_lt_range.imp ?_
        intro k l hkl ks hks ls hls
        obtain ⟨ks', _, rfl⟩ := List.mem_map.mp hks
        obtain ⟨ls', _, rfl⟩ := List.mem_map.mp hls
        exact .rel (by exact_mod_cast hkl)

theorem offsets_eq (axes : List Axis) :
    offsets axes = (subscripts axes).map (displacement · axes) := by
  induction axes with
  | nil => rfl
  | cons a axes ih =>
      rw [offsets, subscripts, List.map_flatMap]
      refine List.flatMap_congr fun k _ => ?_
      rw [ih, List.map_map, List.map_map]
      exact List.map_congr_left fun ks _ => displacement_cons.symm

/-! ## The inner loop ends -/

/-- The loop is at its end or before a visit. -/
def Ready (axes : List Axis) (c : Cursor) : Prop :=
  c.d.length = axes.length ∧ (c.j < 0 ∨ c.j = axes.length)

/-- The offset is taken to the ring. -/
def Cursor.image (c : Cursor) : Odometer R := ⟨c.d, c.j, c.ptr⟩

theorem advance_ready (haxes : axes = pre ++ suf) (hpos : Positive axes)
    (hps : ps.length = pre.length) (ptr : ℤ) (hn : 2 * pre.length + suf.length ≤ n) :
    Ready axes (advance axes n ⟨ps ++ List.replicate suf.length (-1), pre.length - 1, ptr⟩) := by
  induction pre using List.reverseRecOn generalizing suf ps ptr n with
  | nil =>
      obtain rfl := List.eq_nil_of_length_eq_zero hps
      rw [advance_stop n (.inl (by simp))]
      exact ⟨by simp [haxes], .inl (by simp)⟩
  | append_singleton pre a ih =>
      obtain ⟨ps, k, rfl⟩ : ∃ ps' k, ps = ps' ++ [k] := by
        have hne : ps ≠ [] := by
          rintro rfl
          simp at hps
        exact ⟨ps.dropLast, ps.getLast hne, (List.dropLast_append_getLast hne).symm⟩
      rw [List.length_append, List.length_append, List.length_singleton, List.length_singleton,
        Nat.add_right_cancel_iff] at hps
      rw [List.length_append, List.length_singleton] at hn
      obtain ⟨m, rfl⟩ : ∃ m, n = m + 1 := ⟨n - 1, by omega⟩
      have haxes' : axes = pre ++ a :: suf := by rw [haxes, List.append_assoc]; rfl
      have hplace : ((pre ++ [a]).length : ℤ) - 1 = pre.length := by simp
      rw [hplace, List.append_assoc, List.singleton_append, advance_at haxes' hps]
      by_cases hk : k + 1 < a.dim
      · -- the counters after this one start anew
        have hsuf : Positive suf := by
          rw [haxes] at hpos
          exact (positive_append.mp hpos).2
        have hlen : (ps ++ [k + 1]).length = (pre ++ [a]).length := by simp [hps]
        have hup := @advance_up axes (pre ++ [a]) suf (ps ++ [k + 1]) (ptr + a.mod) haxes hsuf hlen m
          (by omega)
        rw [if_pos hk]
        rw [List.append_assoc, List.singleton_append, List.length_append, List.length_singleton,
          Nat.cast_add, Nat.cast_one] at hup
        rw [hup]
        exact ⟨by simp [haxes, hps], .inr rfl⟩
      · rw [if_neg hk]
        exact ih haxes' hps _ (by rw [List.length_cons]; omega)

theorem carry_image (n : ℕ) {c : Cursor}
    (h : (advance axes n c).j < 0 ∨ axes.length ≤ (advance axes n c).j) :
    carry axes (n + 1) (c.image : Odometer R) = some (advance axes n c).image := by
  induction n generalizing c with
  | zero => exact if_pos h
  | succ n ih =>
      by_cases hstop : c.j < 0 ∨ axes.length ≤ c.j
      · rw [advance_stop _ hstop]
        exact if_pos hstop
      · rw [advance, if_neg hstop] at h ⊢
        have hstop' : ¬((c.image : Odometer R).j < 0 ∨
            (axes.length : ℤ) ≤ (c.image : Odometer R).j) := hstop
        rw [carry, if_neg hstop']
        simp only at h ⊢
        have himage : (c.image : Odometer R).d = c.d ∧ (c.image : Odometer R).j = c.j ∧
            (c.image : Odometer R).ptr = c.ptr := ⟨rfl, rfl, rfl⟩
        rw [himage.1, himage.2.1, himage.2.2]
        by_cases hk : c.d.getD c.j.toNat 0 + 1 < (axes.getD c.j.toNat ⟨0, 0⟩).dim
        · rw [if_pos hk] at h ⊢
          rw [if_pos hk, ← ih h]
          simp [Cursor.image]
        · rw [if_neg hk] at h ⊢
          rw [if_neg hk, ← ih h]
          simp [Cursor.image]

/-- The inner loop ends after a visit. -/
theorem following_image (hpos : Positive axes) {c : Cursor} (hd : c.d.length = axes.length)
    (hj : c.j = axes.length) :
    following axes (c.image : Odometer R) =
        some (advance axes (rounds axes) { c with j := c.j - 1 }).image ∧
      Ready axes (advance axes (rounds axes) { c with j := c.j - 1 }) := by
  have hready : Ready axes (advance axes (rounds axes) { c with j := c.j - 1 }) := by
    have hall := advance_ready (n := rounds axes) (List.append_nil axes).symm hpos hd c.ptr
      (by rw [rounds]; simp)
    rw [List.length_nil, List.replicate_zero, List.append_nil] at hall
    rw [hj]
    exact hall
  exact ⟨carry_image _ (hready.2.imp_right fun h => h.ge), hready⟩

/-! ## The loops -/

/-- The loop in the ring visits the images of the offsets. -/
theorem aloop1From_image (hpos : Positive axes) {c : Cursor} {l : List ℤ} (hc : Ready axes c)
    (h : aloopFrom axes n c = some l) :
    aloop1From axes n (c.image : Odometer R) = some (l.map Int.cast) := by
  induction n generalizing c l with
  | zero =>
      rw [aloopFrom] at h
      split_ifs at h with hj
      cases h
      exact if_pos hj
  | succ n ih =>
      rw [aloopFrom] at h
      by_cases hj : c.j < 0
      · rw [if_pos hj] at h
        cases h
        exact if_pos hj
      · rw [if_neg hj] at h
        obtain ⟨rest, hrest, rfl⟩ := Option.map_eq_some_iff.mp h
        obtain ⟨hnext, hready⟩ := following_image (R := R) hpos hc.1 (hc.2.resolve_left hj)
        rw [aloop1From, if_neg (show ¬(c.image : Odometer R).j < 0 from hj), hnext]
        simp only [Option.bind_eq_bind, Option.bind_some, ih hready hrest]
        rfl

/-- The loop over one index. -/
theorem aloop1_eq (hpos : Positive axes) :
    aloop1 axes (count axes) = some ((offsets axes).map (Int.cast : ℤ → R)) := by
  have hstart : (Odometer.start axes : Odometer R) =
      Cursor.image ⟨List.replicate axes.length 0, axes.length, 0⟩ := by
    simp [Odometer.start, Cursor.image]
  rw [aloop1, hstart]
  exact aloop1From_image hpos ⟨by simp, .inr rfl⟩ (aloop_eq hpos)

theorem aloop1From_visit {c : Odometer R} {l : List R} (h : aloop1From axes (n + 1) c = some l)
    (hj : ¬ c.j < 0) : ∃ c' l', following axes c = some c' ∧ aloop1From axes n c' = some l' ∧
      l = c.ptr :: l' := by
  rw [aloop1From, if_neg hj] at h
  obtain ⟨c', hc', h⟩ := Option.bind_eq_some_iff.mp h
  obtain ⟨l', hl', h⟩ := Option.bind_eq_some_iff.mp h
  exact ⟨c', l', hc', hl', (Option.some.inj h).symm⟩

theorem aloop1From_done {c : Odometer R} {l : List R} (h : aloop1From axes n c = some l)
    (hj : c.j < 0) : l = [] := by
  cases n with
  | zero =>
      rw [aloop1From, if_pos hj] at h
      exact (Option.some.inj h).symm
  | succ n =>
      rw [aloop1From, if_pos hj] at h
      exact (Option.some.inj h).symm

/-- Two loops side by side. -/
theorem aloop2From_zip {c1 c2 : Odometer R} {l1 l2 : List R} (h1 : aloop1From axes n c1 = some l1)
    (h2 : aloop1From axes' n c2 = some l2) (hlen : l1.length = l2.length) :
    aloop2From axes axes' n c1 c2 = some (l1.zip l2) := by
  induction n generalizing c1 c2 l1 l2 with
  | zero =>
      rw [aloop1From] at h1 h2
      split_ifs at h1 h2 with hj1 hj2
      cases h1
      exact if_pos (.inl hj1)
  | succ n ih =>
      by_cases hj1 : c1.j < 0
      · rw [aloop1From_done h1 hj1]
        exact if_pos (.inl hj1)
      · obtain ⟨c1', l1', hc1, hl1, rfl⟩ := aloop1From_visit h1 hj1
        have hj2 : ¬ c2.j < 0 := by
          intro hj2
          rw [aloop1From_done h2 hj2] at hlen
          simp at hlen
        obtain ⟨c2', l2', hc2, hl2, rfl⟩ := aloop1From_visit h2 hj2
        have hrest := ih hl1 hl2 (Nat.succ.inj hlen)
        rw [aloop2From, if_neg (not_or.mpr ⟨hj1, hj2⟩), hc1, hc2]
        simp only [Option.bind_eq_bind, Option.bind_some, hrest]
        rfl

/-- **The element loops enumerate exactly**: the loop over one index visits the elements in
the order of their subscripts, and the loop over two pairs them.  The inner loop ends
after each visit, and the outer loop after as many as there are elements. -/
theorem element_loops_exact (axes axes' : List Axis) (hpos : Positive axes)
    (hpos' : Positive axes') :
    (∀ ks, ks ∈ subscripts axes ↔ InRange ks axes) ∧
      (subscripts axes).Pairwise (List.Lex (· < ·)) ∧
      aloop1 axes (count axes) =
        some ((subscripts axes).map fun ks => ((displacement ks axes : ℤ) : R)) ∧
      (count axes = count axes' → aloop2 axes axes' (count axes) =
        some (((subscripts axes).zip (subscripts axes')).map fun p =>
          (((displacement p.1 axes : ℤ) : R), ((displacement p.2 axes' : ℤ) : R)))) := by
  refine ⟨fun ks => mem_subscripts, pairwise_subscripts axes, ?_, ?_⟩
  · rw [aloop1_eq hpos, offsets_eq, List.map_map]
    rfl
  · intro hcount
    have h1 : aloop1 axes (count axes) = some ((offsets axes).map (Int.cast : ℤ → R)) :=
      aloop1_eq hpos
    have h2 : aloop1 axes' (count axes) = some ((offsets axes').map (Int.cast : ℤ → R)) :=
      hcount ▸ aloop1_eq hpos'
    have hzip := aloop2From_zip h1 h2 (by simp [hcount])
    rw [aloop2, hzip, offsets_eq, offsets_eq, List.map_map, List.map_map, List.zip_map]
    rfl

/-- A column of two elements that is read backwards, and a row in which every second
element is read. -/
theorem element_loops_exact_pair : (subscripts [⟨2, -1⟩, ⟨1, 0⟩]).Pairwise (List.Lex (· < ·)) ∧
    aloop1 [⟨2, -1⟩, ⟨1, 0⟩] 2 =
      some ((subscripts [⟨2, -1⟩, ⟨1, 0⟩]).map fun ks => displacement ks [⟨2, -1⟩, ⟨1, 0⟩]) ∧
    aloop2 [⟨2, -1⟩, ⟨1, 0⟩] [⟨2, 2⟩] 2 = some [(0, 0), (-1, (2 : ℤ))] := by
  have hpos : Positive [⟨2, -1⟩, ⟨1, 0⟩] := by simp
  have hpos' : Positive [⟨2, 2⟩] := by simp
  obtain ⟨_, hpairwise, hone, htwo⟩ := element_loops_exact (R := ℤ) _ _ hpos hpos'
  exact ⟨hpairwise, hone, (htwo rfl).trans (by decide)⟩

end Lush.Arrays
