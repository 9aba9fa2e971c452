import Lush.Ints

/-!
# Deletion from strings

`strdel` copies what is before the deleted characters and what is after them.  The
places are computed with `int`s, and so is the length of the string.
-/

namespace Lush.Text

/-- `large_string_add(&ls, s + p, len)`: what is added. -/
def largeStringAdd (s : CString) (p len : ℤ) : Except Fault (List UInt8) := do
  let len ←
    if len < 0 then
      if 0 ≤ p ∧ p ≤ s.bytes.length then .ok (intCast (s.bytes.length - p))
      else .error .undefined
    else .ok len
  -- the size is taken as unsigned
  if len < 0 then .error (.error "memory exhausted")
  else if 0 ≤ p ∧ p + len ≤ s.bytes.length then .ok ((s.bytes.drop p.toNat).take len.toNat)
  else .error .undefined

/-- The position before the first deleted character. -/
def clampPlace (len n : ℤ) : ℤ :=
  let n := if n > 1 then n - 1 else 0
  if n > len then len else n

/-- `if (l < 0 || n + l > len) l = len - n`. -/
def clampCount (len n l : ℤ) : Except Fault ℤ :=
  if l < 0 then .ok (len - n)
  else do
    let stop ← intResult (n + l)
    return if stop > len then len - n else l

/-- `str_del`. -/
def strDel (s : CString) (n l : BitVec 32) : Except Fault (List UInt8) := do
  let len := intCast s.bytes.length
  let n := clampPlace len n.toInt
  let l ← clampCount len n l.toInt
  let before ← largeStringAdd s 0 n
  let after ← largeStringAdd s (n + l) (-1)
  return before ++ after

/-! ## What is deleted -/

/-- How many characters are before the first position. -/
def start (n : BitVec 32) : ℕ := (max n.toInt 1 - 1).toNat

/-- The string without `l` characters from the position `n` on. -/
def deleted (s : CString) (n l : BitVec 32) : List UInt8 :=
  s.bytes.take (start n) ++
    if l.toInt < 0 then [] else s.bytes.drop (start n + l.toInt.toNat)

/-- The length of the string is an `int`, and so is the end of the deletion.  In a longer
string only a deletion to the end can succeed, for a part of the lengths. -/
def Deletable (s : CString) (n l : BitVec 32) : Prop :=
  0 ≤ intCast s.bytes.length ∧
    (0 ≤ l.toInt → min (start n : ℤ) (intCast s.bytes.length) + l.toInt < 2147483648) ∧
    (intCast s.bytes.length = s.bytes.length ∨
      (l.toInt < 0 ∧ (start n : ℤ) ≤ intCast s.bytes.length))

variable {s : CString} {p len : ℤ}

theorem largeStringAdd_ok (hp : 0 ≤ p) (hlen : 0 ≤ len) (h : p + len ≤ s.bytes.length) :
    largeStringAdd s p len = .ok ((s.bytes.drop p.toNat).take len.toNat) := by
  simp only [largeStringAdd, if_neg (not_lt.mpr hlen), bind, Except.bind, if_pos (And.intro hp h)]

/-- What is after a place. -/
theorem largeStringAdd_rest (hp : 0 ≤ p) (h : p ≤ s.bytes.length)
    (hrest : 0 ≤ intCast (s.bytes.length - p)) :
    largeStringAdd s p (-1) =
      .ok ((s.bytes.drop p.toNat).take (intCast (s.bytes.length - p)).toNat) := by
  have hle : p + intCast (s.bytes.length - p) ≤ s.bytes.length := by
    obtain ⟨k, hk⟩ := exists_intCast (s.bytes.length - p)
    have hint := inInt_intCast (s.bytes.length - p)
    unfold InInt at hint
    omega
  simp only [largeStringAdd, if_pos (show (-1 : ℤ) < 0 by decide), if_pos (And.intro hp h), bind,
    Except.bind, if_neg (not_lt.mpr hrest), if_pos (And.intro hp hle)]

/-- The length of the rest is not an `int`. -/
theorem largeStringAdd_negative (hrest : intCast (s.bytes.length - p) < 0) (b : List UInt8) :
    largeStringAdd s p (-1) ≠ .ok b := by
  unfold largeStringAdd
  rw [if_pos (by decide)]
  by_cases hp : 0 ≤ p ∧ p ≤ s.bytes.length
  · simp only [if_pos hp, bind, Except.bind, if_pos hrest]
    exact nofun
  · simp only [if_neg hp, bind, Except.bind]
    exact nofun

/-- The first position, after both tests. -/
def place (s : CString) (n : BitVec 32) : ℤ := min (start n) (intCast s.bytes.length)

/-- The number of characters, after both tests. -/
def count (s : CString) (n l : BitVec 32) : ℤ :=
  if l.toInt < 0 ∨ place s n + l.toInt > intCast s.bytes.length then
    intCast s.bytes.length - place s n
  else l.toInt

variable {n l : BitVec 32}

theorem clampPlace_eq : clampPlace (intCast s.bytes.length) n.toInt = place s n := by
  simp only [clampPlace, place, start]
  split_ifs <;> omega

theorem strDel_bind : strDel s n l = (do
    let l ← clampCount (intCast s.bytes.length) (place s n) l.toInt
    let before ← largeStringAdd s 0 (place s n)
    let after ← largeStringAdd s (place s n + l) (-1)
    return before ++ after) := by
  rw [← clampPlace_eq]
  rfl

/-- Where the sum is an `int`. -/
theorem clampCount_ok (h : 0 ≤ l.toInt → InInt (place s n + l.toInt)) :
    clampCount (intCast s.bytes.length) (place s n) l.toInt = .ok (count s n l) := by
  unfold clampCount count
  by_cases hl : l.toInt < 0
  · rw [if_pos hl, if_pos (Or.inl hl)]
  · have hor : (l.toInt < 0 ∨ place s n + l.toInt > intCast s.bytes.length) ↔
        place s n + l.toInt > intCast s.bytes.length := or_iff_right hl
    rw [if_neg hl, intResult_ok (h (not_lt.mp hl)), ok_bind]
    simp only [hor]
    rfl

theorem strDel_eq (h : 0 ≤ l.toInt → InInt (place s n + l.toInt)) : strDel s n l = (do
    let before ← largeStringAdd s 0 (place s n)
    let after ← largeStringAdd s (place s n + count s n l) (-1)
    return before ++ after) := by
  rw [strDel_bind, clampCount_ok h, ok_bind]

theorem strDel_overflow (hl : 0 ≤ l.toInt) (h : ¬ InInt (place s n + l.toInt)) :
    strDel s n l = .error .undefined := by
  have hclamp : clampCount (intCast s.bytes.length) (place s n) l.toInt = .error .undefined := by
    unfold clampCount
    rw [if_neg (not_lt.mpr hl), intResult_error h, error_bind]
  rw [strDel_bind, hclamp, error_bind]

/-- The places of the deletion, as they are computed and as they should be: `c` is the
length that is used, and `r` the length of the rest. -/
structure Places (bytes : List UInt8) (m : ℕ) (i c q k r : ℤ) : Prop where
  place : q = min (m : ℤ) c
  count : k = if i < 0 ∨ q + i > c then c - q else i
  length : ∃ j, (bytes.length : ℤ) = c + 4294967296 * j
  rest : ∃ j, (bytes.length : ℤ) - (q + k) = r + 4294967296 * j
  small : m < 2147483648 ∧ i < 2147483648 ∧ 0 ≤ c ∧ c < 2147483648 ∧ InInt r
  le : c ≤ bytes.length

variable {bytes : List UInt8} {m : ℕ} {i c q k r : ℤ}

theorem Places.stop (h : Places bytes m i c q k r) : 0 ≤ q ∧ 0 ≤ k ∧ q + k ≤ c := by
  have hq := h.place
  have hk := h.count
  have hc := h.small.2.2.1
  split_ifs at hk with hcount
  · omega
  · push Not at hcount
    omega

/-- The rest, where its length is an `int`. -/
theorem Places.rest_eq (h : Places bytes m i c q k r) (hlen : c = bytes.length) :
    r = bytes.length - (q + k) := by
  obtain ⟨b, hb⟩ := h.rest
  obtain ⟨_, _, hc, hc', hr⟩ := h.small
  have hstop := h.stop
  unfold InInt at hr
  omega

/-- The rest of a longer string, where the deletion goes up to `c`. -/
theorem Places.rest_zero (h : Places bytes m i c q k r) (hk : k = c - q) : r = 0 := by
  obtain ⟨a, ha⟩ := h.length
  obtain ⟨b, hb⟩ := h.rest
  obtain ⟨_, _, _, _, hr⟩ := h.small
  unfold InInt at hr
  omega

theorem Places.rest_nonneg (h : Places bytes m i c q k r)
    (hlen : c = bytes.length ∨ (i < 0 ∧ (m : ℤ) ≤ c)) : 0 ≤ r := by
  rcases hlen with hlen | ⟨hneg, hlen⟩
  · have hrest := h.rest_eq hlen
    have hstop := h.stop
    omega
  · have hk := h.count
    rw [if_pos (.inl hneg)] at hk
    rw [h.rest_zero hk]

/-- The string that is put together is the one without the characters. -/
theorem Places.deleted (h : Places bytes m i c q k r)
    (hlen : c = bytes.length ∨ (i < 0 ∧ (m : ℤ) ≤ c)) :
    bytes.take q.toNat ++ (bytes.drop (q + k).toNat).take r.toNat =
      bytes.take m ++ (if i < 0 then [] else bytes.drop (m + i.toNat)) := by
  have hq := h.place
  have hk := h.count
  have hbefore : bytes.take q.toNat = bytes.take m := by
    rw [List.take_eq_take_iff]
    omega
  rw [hbefore]
  congr 1
  rcases hlen with hlen | ⟨hneg, hlen⟩
  · have hall : (bytes.drop (q + k).toNat).take r.toNat = bytes.drop (q + k).toNat := by
      have hrest := h.rest_eq hlen
      have hstop := h.stop
      apply List.take_of_length_le
      rw [List.length_drop]
      omega
    rw [hall]
    by_cases hcount : i < 0 ∨ q + i > c
    · -- the deletion goes to the end
      rw [if_pos hcount] at hk
      rw [List.drop_of_length_le (by omega)]
      by_cases hneg : i < 0
      · rw [if_pos hneg]
      · rw [if_neg hneg, List.drop_of_length_le (by omega)]
    · rw [if_neg hcount] at hk
      push Not at hcount
      rw [if_neg (not_lt.mpr hcount.1)]
      by_cases hm : (m : ℤ) ≤ c
      · congr 1
        omega
      · rw [List.drop_of_length_le (by omega), List.drop_of_length_le (by omega)]
  · rw [if_pos (.inl hneg)] at hk
    rw [if_pos hneg, h.rest_zero hk]
    exact List.take_zero

/-- In a longer string the lengths tell the two apart. -/
theorem Places.length_ne (h : Places bytes m i c q k r) (hr : 0 ≤ r) (hlen : c ≠ bytes.length)
    (hlong : ¬(i < 0 ∧ (m : ℤ) ≤ c)) :
    (bytes.take q.toNat ++ (bytes.drop (q + k).toNat).take r.toNat).length ≠
      (bytes.take m ++ (if i < 0 then [] else bytes.drop (m + i.toNat))).length := by
  obtain ⟨a, ha⟩ := h.length
  obtain ⟨hm, hi, hc, hc', hint⟩ := h.small
  have hstop := h.stop
  have hk := h.count
  have hq := h.place
  have hle := h.le
  have hlarge : 4294967296 ≤ (bytes.length : ℤ) := by omega
  have hresult : (bytes.take q.toNat ++ (bytes.drop (q + k).toNat).take r.toNat).length ≤
      q.toNat + r.toNat := by
    rw [List.length_append, List.length_take, List.length_take]
    omega
  by_cases hneg : i < 0
  · -- the position is after the length that is used
    rw [if_pos (.inl hneg)] at hk
    have hr' := h.rest_zero hk
    rw [if_pos hneg, List.append_nil, List.length_take]
    omega
  · obtain ⟨b, hb⟩ := h.rest
    unfold InInt at hint
    have hclaimed : (bytes.take m ++ bytes.drop (m + i.toNat)).length =
        min m bytes.length + (bytes.length - (m + i.toNat)) := by simp
    have hkeep : (bytes.length : ℤ) - i ≤ (min m bytes.length + (bytes.length - (m + i.toNat)) : ℕ) := by
      omega
    have hshort : q + r ≤ (bytes.length : ℤ) - 4294967296 := by omega
    rw [if_neg hneg, hclaimed]
    omega

theorem Places.eq_iff (h : Places bytes m i c q k r) (hr : 0 ≤ r) :
    bytes.take q.toNat ++ (bytes.drop (q + k).toNat).take r.toNat =
        bytes.take m ++ (if i < 0 then [] else bytes.drop (m + i.toNat)) ↔
      c = bytes.length ∨ (i < 0 ∧ (m : ℤ) ≤ c) := by
  refine ⟨?_, h.deleted⟩
  intro heq
  by_contra hlen
  push Not at hlen
  exact h.length_ne hr hlen.1 (fun hlong => (hlen.2 hlong.1).not_ge hlong.2) (congrArg _ heq)

/-- **Deletion from strings**: `strdel` gives the string without the characters, and reads
only inside it, exactly where its sums are `int`s. -/
theorem strDel_deleted_iff (s : CString) (n l : BitVec 32) :
    strDel s n l = .ok (deleted s n l) ↔ Deletable s n l := by
  have hlint := inInt_toInt l
  have hnint := inInt_toInt n
  have hcint := inInt_intCast s.bytes.length
  have hlength := exists_intCast s.bytes.length
  have hstart : (start n : ℤ) = max n.toInt 1 - 1 := by
    unfold start
    omega
  have hplace : place s n = min (start n : ℤ) (intCast s.bytes.length) := rfl
  unfold InInt at hlint hnint hcint
  unfold Deletable
  rw [← hplace]
  by_cases hover : 0 ≤ l.toInt ∧ ¬ InInt (place s n + l.toInt)
  · -- the sum is no `int`
    rw [strDel_overflow hover.1 hover.2]
    refine iff_of_false nofun ?_
    rintro ⟨_, hsum, _⟩
    have hlt := hsum hover.1
    have hno := hover.2
    unfold InInt at hno
    omega
  · rw [strDel_eq fun hl => by_contra fun h => hover ⟨hl, h⟩]
    by_cases hc : intCast s.bytes.length < 0
    · -- the length is negative, and so is the place
      have hfirst : ∀ b, largeStringAdd s 0 (place s n) ≠ .ok b := by
        intro b
        have hneg : place s n < 0 := by omega
        have hsame : largeStringAdd s 0 (place s n) = largeStringAdd s 0 (-1) := by
          unfold largeStringAdd
          rw [if_pos hneg, if_pos (show (-1 : ℤ) < 0 by decide)]
        rw [hsame]
        apply largeStringAdd_negative
        rwa [sub_zero]
      refine iff_of_false ?_ fun h => absurd h.1 (not_le.mpr hc)
      intro h
      obtain ⟨before, hbefore, _⟩ := bind_ok.mp h
      exact hfirst before hbefore
    · push Not at hc
      have hplace0 : 0 ≤ place s n := by omega
      have hplacec : place s n ≤ intCast s.bytes.length := by omega
      have hcle : intCast s.bytes.length ≤ s.bytes.length := by
        obtain ⟨k, hk⟩ := hlength
        omega
      have hcount0 : 0 ≤ count s n l := by
        unfold count
        split_ifs <;> omega
      have hsum : place s n + count s n l ≤ intCast s.bytes.length := by
        unfold count
        split_ifs <;> omega
      have hbefore : largeStringAdd s 0 (place s n) = .ok (s.bytes.take (place s n).toNat) :=
        largeStringAdd_ok le_rfl hplace0 (by rw [zero_add]; exact hplacec.trans hcle)
      have hplaces : Places s.bytes (start n) l.toInt (intCast s.bytes.length) (place s n)
          (count s n l) (intCast (s.bytes.length - (place s n + count s n l))) :=
        ⟨rfl, rfl, hlength, exists_intCast _,
          ⟨by omega, hlint.2, hc, hcint.2, inInt_intCast _⟩, hcle⟩
      have hsmall : 0 ≤ l.toInt → place s n + l.toInt < 2147483648 := by
        intro hl
        by_contra hlt
        refine hover ⟨hl, ?_⟩
        unfold InInt
        omega
      rw [hbefore, ok_bind, and_iff_right hc, and_iff_right hsmall]
      by_cases hrest : intCast (s.bytes.length - (place s n + count s n l)) < 0
      · refine iff_of_false ?_ fun h => absurd (hplaces.rest_nonneg h) (not_le.mpr hrest)
        intro h
        obtain ⟨after, hafter, _⟩ := bind_ok.mp h
        exact largeStringAdd_negative hrest after hafter
      · push Not at hrest
        rw [largeStringAdd_rest (add_nonneg hplace0 hcount0) (hsum.trans hcle) hrest, ok_bind,
          ← hplaces.eq_iff hrest]
        exact ⟨fun h => Except.ok.inj h, congrArg Except.ok⟩

/-- Three letters. -/
def letters : CString := ⟨[97, 98, 99], by decide⟩

/-- The end of a deletion after the second letter is no `int`. -/
theorem not_deleted_letters : strDel letters 2 2147483647 ≠ .ok (deleted letters 2 2147483647) := by
  have hover : strDel letters 2 2147483647 = .error .undefined := by
    apply strDel_overflow
    · decide
    · have hplace : place letters 2 = 1 := by
        have hlen : intCast letters.bytes.length = 3 := intCast_of_inInt (by decide)
        rw [place, hlen]
        decide
      rw [hplace]
      decide
  rw [hover]
  exact nofun

end Lush.Text
