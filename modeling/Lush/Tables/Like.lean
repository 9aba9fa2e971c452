import Mathlib.Computability.Language

/-!
# `LIKE`

`_dt-s1like` fills a table with one row for each prefix of the string and one cell for each
prefix of the pattern, of which it keeps two rows.  A cell says whether the prefix of the
string matches the prefix of the pattern (`Row`), and the last cell is the answer
(`s1like_iff`).
-/

namespace Lush.Tables.Like

/-! ## Patterns -/

/-- `'%'`. -/
def percent : UInt8 := 37

/-- `'_'`. -/
def underscore : UInt8 := 95

/-- The strings of one byte. -/
def anyByte : Language UInt8 := {s | ∃ x, s = [x]}

/-- What a byte of a pattern stands for. -/
def piece (c : UInt8) : Language UInt8 :=
  if c = percent then ⊤ else if c = underscore then anyByte else {[c]}

/-- The strings that can be split to match a pattern. -/
def matching (p : List UInt8) : Language UInt8 := (p.map piece).prod

/-! ## The table -/

/-- The cells of the first row after one that is `b`. -/
def initRow (b : Bool) : List UInt8 → List Bool
  | [] => []
  | c :: p =>
      let b' := b && c == percent
      b' :: initRow b' p

/-- The cells of the next row after one that is `left`, for a byte `x` of the string.  The
row before it starts one cell to the left. -/
def nextCells (x : UInt8) (left : Bool) : List UInt8 → List Bool → List Bool
  | c :: p, diag :: up :: prev =>
      let b :=
        if c == percent then left || up
        else if c == underscore then diag
        else diag && x == c
      b :: nextCells x b p (up :: prev)
  | _, _ => []

/-- The row of a string that is one byte longer. -/
def nextRow (p : List UInt8) (prev : List Bool) (x : UInt8) : List Bool :=
  false :: nextCells x false p prev

/-- The row of a whole string. -/
def lastRow (s p : List UInt8) : List Bool := s.foldl (nextRow p) (true :: initRow true p)

/-- `_dt-s1like`. -/
def s1like (s pattern : List UInt8) : ℕ :=
  if 4095 < pattern.length then 0
  else if (lastRow s pattern).getD pattern.length false then 1 else 0

/-! ## Matching from the right -/

variable {s p q : List UInt8} {c x : UInt8} {L : Language UInt8} {row : List Bool} {b : Bool}

@[simp] theorem matching_nil : matching [] = 1 := rfl

theorem matching_concat (p : List UInt8) (c : UInt8) :
    matching (p ++ [c]) = matching p * piece c := by
  simp [matching]

theorem mem_anyByte : s ∈ anyByte ↔ ∃ x, s = [x] := Iff.rfl

theorem mem_byte : s ∈ ({[c]} : Language UInt8) ↔ s = [c] := Iff.rfl

theorem mem_mul_top : s ∈ L * (⊤ : Language UInt8) ↔ ∃ t ∈ L, t <+: s := by
  rw [Language.mem_mul]
  constructor
  · rintro ⟨t, ht, u, -, rfl⟩
    exact ⟨t, ht, List.prefix_append t u⟩
  · rintro ⟨t, ht, u, rfl⟩
    exact ⟨t, ht, u, trivial, rfl⟩

/-- The empty string matches nothing but `%`s. -/
theorem nil_mem_concat : [] ∈ matching (q ++ [c]) ↔ [] ∈ matching q ∧ c = percent := by
  rw [matching_concat, piece]
  split_ifs with hpercent hunder
  · rw [mem_mul_top]
    simp [hpercent, List.prefix_nil]
  · simp [Language.mem_mul, hpercent, mem_anyByte]
  · simp [Language.mem_mul, hpercent, mem_byte]

/-- What `%` stands for ends before the last byte, or with it. -/
theorem concat_mem_percent :
    s ++ [x] ∈ matching (q ++ [percent]) ↔
      s ++ [x] ∈ matching q ∨ s ∈ matching (q ++ [percent]) := by
  rw [matching_concat, piece, if_pos rfl, mem_mul_top, mem_mul_top]
  constructor
  · rintro ⟨t, ht, htx⟩
    rcases List.prefix_concat_iff.mp htx with rfl | hts
    · exact Or.inl ht
    · exact Or.inr ⟨t, ht, hts⟩
  · rintro (hx | ⟨t, ht, hts⟩)
    · exact ⟨_, hx, List.prefix_rfl⟩
    · exact ⟨t, ht, hts.trans (List.prefix_append s [x])⟩

theorem concat_mem_underscore :
    s ++ [x] ∈ matching (q ++ [underscore]) ↔ s ∈ matching q := by
  rw [matching_concat, piece, if_neg (by decide), if_pos rfl, Language.mem_mul]
  constructor
  · rintro ⟨t, ht, u, ⟨y, rfl⟩, heq⟩
    obtain ⟨rfl, -⟩ := List.append_inj' heq rfl
    exact ht
  · intro hs
    exact ⟨s, hs, [x], ⟨x, rfl⟩, rfl⟩

theorem concat_mem_byte (hpercent : c ≠ percent) (hunder : c ≠ underscore) :
    s ++ [x] ∈ matching (q ++ [c]) ↔ s ∈ matching q ∧ x = c := by
  rw [matching_concat, piece, if_neg hpercent, if_neg hunder, Language.mem_mul]
  constructor
  · rintro ⟨t, ht, u, rfl, heq⟩
    obtain ⟨rfl, hx⟩ := List.append_inj' heq rfl
    exact ⟨ht, (List.cons.inj hx).1.symm⟩
  · rintro ⟨hs, rfl⟩
    exact ⟨s, hs, [x], rfl, rfl⟩

/-! ## Rows -/

/-- The cells of a row from the prefix `q` of the pattern on, of which `p` is the rest. -/
def Row (s q : List UInt8) : List UInt8 → List Bool → Prop
  | [], row => ∃ b, row = [b] ∧ (b = true ↔ s ∈ matching q)
  | c :: p, row => ∃ b rest, row = b :: rest ∧ (b = true ↔ s ∈ matching q) ∧
      Row s (q ++ [c]) p rest

theorem Row.head (h : Row s q p row) :
    ∃ b rest, row = b :: rest ∧ (b = true ↔ s ∈ matching q) := by
  cases p with
  | nil =>
      obtain ⟨b, rfl, hb⟩ := h
      exact ⟨b, [], rfl, hb⟩
  | cons c p =>
      obtain ⟨b, rest, rfl, hb, -⟩ := h
      exact ⟨b, rest, rfl, hb⟩

theorem row_init (p : List UInt8) (hb : b = true ↔ [] ∈ matching q) :
    Row [] q p (b :: initRow b p) := by
  induction p generalizing q b with
  | nil => exact ⟨b, rfl, hb⟩
  | cons c p ih =>
      refine ⟨b, _, rfl, hb, ih ?_⟩
      rw [nil_mem_concat, ← hb, Bool.and_eq_true, beq_iff_eq]

/-- **One row.**  A cell is computed from its left neighbour and two cells of the row
before it. -/
theorem Row.next {left : Bool} (h : Row s q p row) (hleft : left = true ↔ s ++ [x] ∈ matching q) :
    Row (s ++ [x]) q p (left :: nextCells x left p row) := by
  induction p generalizing q row left with
  | nil => exact ⟨left, by simp [nextCells], hleft⟩
  | cons c p ih =>
      obtain ⟨diag, rest, rfl, hdiag, hrest⟩ := h
      obtain ⟨up, prev, rfl, hup⟩ := hrest.head
      refine ⟨left, _, rfl, hleft, ih hrest ?_⟩
      -- the three kinds of bytes
      by_cases hpercent : c = percent
      · subst hpercent
        rw [if_pos (beq_self_eq_true _), concat_mem_percent, Bool.or_eq_true, hleft, hup]
      · rw [if_neg (by simpa using hpercent)]
        by_cases hunder : c = underscore
        · subst hunder
          rw [if_pos (beq_self_eq_true _), concat_mem_underscore, hdiag]
        · rw [if_neg (by simpa using hunder), concat_mem_byte hpercent hunder,
            Bool.and_eq_true, beq_iff_eq, hdiag]

theorem Row.nextRow (h : Row s [] p row) : Row (s ++ [x]) [] p (nextRow p row x) := by
  refine h.next ?_
  simp [Language.mem_one]

theorem Row.foldl (h : Row s [] p row) (t : List UInt8) :
    Row (s ++ t) [] p (t.foldl (Like.nextRow p) row) := by
  induction t generalizing s row with
  | nil => simpa using h
  | cons x t ih => simpa using ih (h.nextRow (x := x))

/-- The row of a string has a cell for every prefix of the pattern. -/
theorem row_lastRow (s p : List UInt8) : Row s [] p (lastRow s p) := by
  have hinit : Row [] [] p (true :: initRow true p) := by
    apply row_init
    simp [Language.mem_one]
  exact hinit.foldl s

theorem Row.last (h : Row s q p row) :
    row.getD p.length false = true ↔ s ∈ matching (q ++ p) := by
  induction p generalizing q row with
  | nil =>
      obtain ⟨b, rfl, hb⟩ := h
      simpa using hb
  | cons c p ih =>
      obtain ⟨b, rest, rfl, -, hrest⟩ := h
      simpa using ih hrest

theorem Row.length (h : Row s q p row) : row.length = p.length + 1 := by
  induction p generalizing q row with
  | nil =>
      obtain ⟨b, rfl, -⟩ := h
      rfl
  | cons c p ih =>
      obtain ⟨b, rest, rfl, -, hrest⟩ := h
      rw [List.length_cons, ih hrest, List.length_cons]

/-- Both rows fit in their buffers. -/
theorem lastRow_length_le (s : List UInt8) (hp : p.length ≤ 4095) :
    (lastRow s p).length ≤ 4096 := by
  rw [(row_lastRow s p).length]
  omega

/-- **`LIKE` is exact.** -/
theorem s1like_iff (s : List UInt8) {pattern : List UInt8} (h : pattern.length ≤ 4095) :
    s1like s pattern = 1 ↔ s ∈ matching pattern := by
  have hlast := (row_lastRow s pattern).last
  rw [List.nil_append] at hlast
  rw [s1like, if_neg (Nat.not_lt.mpr h), ← hlast]
  split_ifs with hcell
  · exact iff_of_true rfl hcell
  · exact iff_of_false (by decide) hcell

/-- `a%_` matches `abc`. -/
theorem s1like_iff_abc :
    s1like [97, 98, 99] [97, 37, 95] = 1 ∧ [97, 98, 99] ∈ matching [97, 37, 95] :=
  have h : s1like [97, 98, 99] [97, 37, 95] = 1 := by decide
  ⟨h, (s1like_iff [97, 98, 99] (by decide)).mp h⟩

end Lush.Tables.Like
