import Lush.Text.Chars
import Lush.Library.Binary64

/-!
# Printing and reading numbers

`str_number` prints a number with `%.4f`, or with `%g` when it is very small or
very large, and removes the zeros after the point.  `str_val` reads decimal and
hexadecimal numbers; a word that it does not read is a symbol.
-/

namespace Lush.Text

open Binary64

/-! ## Decimal digits -/

/-- The character of a digit. -/
def digit (d : ℕ) : UInt8 := UInt8.ofNat (48 + d)

/-- The decimal digits of a number. -/
def decimal (n : ℕ) : List UInt8 :=
  if n = 0 then [digit 0] else (Nat.digits 10 n).reverse.map digit

/-- The number that a row of digits stands for. -/
def digitsValue (s : List UInt8) : ℕ :=
  s.foldl (fun value c => 10 * value + (c.toNat - 48)) 0

/-! ## The printer -/

/-- A point and decimals, without the zeros at the end. -/
def decimals (s : List UInt8) : List UInt8 :=
  match s.rdropWhile (· = ascii '0') with
  | [] => []
  | s => ascii '.' :: s

/-- `%.4f`, for the absolute value. -/
def formatFixed (q : ℚ) : List UInt8 :=
  let k := roundHalfEven (q * 10 ^ 4)
  decimal (k / 10 ^ 4) ++ [ascii '.', digit (k / 1000 % 10), digit (k / 100 % 10),
    digit (k / 10 % 10), digit (k % 10)]

/-- `%g`, for the absolute value: six significant digits, without the zeros at
the end, with an exponent unless it is from `-4` to `5`. -/
def formatGeneral (q : ℚ) : List UInt8 :=
  if q = 0 then [ascii '0']
  else
    let x := Int.log 10 q
    let m := roundHalfEven (q / 10 ^ (x - 5))
    let (x, s) := if m = 10 ^ 6 then (x + 1, decimal (10 ^ 5)) else (x, decimal m)
    if 0 ≤ x ∧ x < 6 then
      s.take (x.toNat + 1) ++ decimals (s.drop (x.toNat + 1))
    else if -4 ≤ x ∧ x < 0 then
      ascii '0' :: decimals (List.replicate (-x - 1).toNat (ascii '0') ++ s)
    else
      s.take 1 ++ decimals (s.drop 1) ++ ascii 'e' ::
        (if x < 0 then ascii '-' else ascii '+') ::
        (if x.natAbs < 10 then ascii '0' :: decimal x.natAbs else decimal x.natAbs)

/-- The second half of `str_number`: the decimals are cut after the last one that
is not zero. -/
def stripZeros (s : List UInt8) : List UInt8 :=
  match s.dropWhile (· ≠ ascii '.') with
  | [] => s
  | _ :: t => s.takeWhile (· ≠ ascii '.') ++ decimals (t.takeWhile isDigit) ++ t.dropWhile isDigit

/-- `str_number`.  The `real` next to `1e-3` is above `1 / 1000`, with none
between them. -/
def strNumber (x : BitVec 64) : List UInt8 :=
  let sign := if negative x then [ascii '-'] else []
  match magnitude x with
  | none =>
      if fractionField x ≠ 0 then [ascii 'N', ascii 'a', ascii 'n']
      else sign ++ [ascii 'I', ascii 'n', ascii 'f']
  | some q =>
      if q < 1 / 1000 ∨ 10 ^ 10 < q then stripZeros (sign ++ formatGeneral q)
      else stripZeros (sign ++ formatFixed q)

/-! ## The reader -/

/-- `atof`, on the words that `str_val_float` lets pass. -/
def atof (s : List UInt8) : BitVec 64 :=
  let sign := s.head? = some (ascii '-')
  let s := if sign ∨ s.head? = some (ascii '+') then s.tail else s
  let whole := s.takeWhile isDigit
  let s := s.dropWhile isDigit
  let (part, s) := if s.head? = some (ascii '.') then
      (s.tail.takeWhile isDigit, s.tail.dropWhile isDigit) else ([], s)
  if whole ++ part = [] then encode false 0
  else
    let exponent : ℤ :=
      match s with
      | e :: t =>
          if e = ascii 'e' ∨ e = ascii 'E' then
            if t.head? = some (ascii '-') then -digitsValue (t.tail.takeWhile isDigit)
            else if t.head? = some (ascii '+') then digitsValue (t.tail.takeWhile isDigit)
            else digitsValue (t.takeWhile isDigit)
          else 0
      | [] => 0
    encode sign (digitsValue (whole ++ part) * 10 ^ (exponent - part.length))

/-- The digit loop of `str_val_hex`: an `int` takes the digits as long as no bit is
lost. -/
def hexLoop : BitVec 32 → List UInt8 → Option (BitVec 32)
  | x, [] => some x
  | x, c :: s =>
      if x &&& 0xf0000000#32 ≠ 0 then none
      else if 48 ≤ c ∧ c ≤ 57 then hexLoop (x <<< 4 + BitVec.ofNat 32 (c.toNat - 48)) s
      else if 97 ≤ c ∧ c ≤ 102 then hexLoop (x <<< 4 + BitVec.ofNat 32 (c.toNat - 97 + 10)) s
      else if 65 ≤ c ∧ c ≤ 70 then hexLoop (x <<< 4 + BitVec.ofNat 32 (c.toNat - 65 + 10)) s
      else none

/-- The number of an `int`. -/
def ofInt (n : ℤ) : BitVec 64 := encode (n < 0) n.natAbs

/-- `str_val_hex`. -/
def strValHex (s : List UInt8) : Option (BitVec 64) :=
  let s := s.dropWhile isSpace
  let sign := s.head? = some (ascii '-')
  let s := if sign ∨ s.head? = some (ascii '+') then s.tail else s
  match s with
  | c :: d :: e :: t =>
      if c = ascii '0' ∧ (d = ascii 'x' ∨ d = ascii 'X') then
        (hexLoop 0 (e :: t)).map fun x => ofInt (if sign then -x else x).toInt
      else none
  | _ => none

/-- The loop of `str_val_float`, with its flags: a digit, a sign, the point, the
exponent.  It gives what is left, and the flag of a digit. -/
def floatLoop : Bool → Bool → Bool → Bool → List UInt8 → Option (List UInt8 × Bool)
  | digits, _, _, _, [] => some ([], digits)
  | digits, sign, point, exponent, c :: s =>
      if isDigit c then floatLoop true sign point exponent s
      else if c = ascii '+' ∨ c = ascii '-' then
        if digits ∨ sign then none else floatLoop digits true point exponent s
      else if c = ascii '.' then
        if point ∨ exponent then none else floatLoop digits sign true exponent s
      else if c = ascii 'e' ∨ c = ascii 'E' then
        if exponent then none else floatLoop false false point true s
      else some (c :: s, digits)

/-- `str_val_float`. -/
def strValFloat (s : List UInt8) : Option (BitVec 64) :=
  match s.dropWhile isSpace with
  | [] => none
  | c :: s =>
      if isDigit c ∨ c = ascii '+' ∨ c = ascii '-' ∨ c = ascii '.' then
        match floatLoop false false false false (c :: s) with
        | none => none
        | some (rest, digits) =>
            if rest.dropWhile isSpace = [] ∧ digits then some (atof (c :: s)) else none
      else none

/-- `str_val`. -/
def strVal (s : List UInt8) : Option (BitVec 64) :=
  (strValHex s).or (strValFloat s)

/-! ## Integers -/

theorem isDigit_digit {d : ℕ} (hd : d < 10) : isDigit (digit d) = true ∧ (digit d).toNat = 48 + d := by
  have hall : ∀ d : Fin 10, isDigit (digit d) = true ∧ (digit d).toNat = 48 + d := by decide
  exact hall ⟨d, hd⟩

/-- Decimal digits, at least one. -/
theorem decimal_digits (n : ℕ) : decimal n ≠ [] ∧ ∀ c ∈ decimal n, isDigit c = true := by
  unfold decimal
  split_ifs with hn
  · exact ⟨by simp, by simpa using (isDigit_digit (d := 0) (by norm_num)).1⟩
  · refine ⟨by simpa using Nat.digits_ne_nil_iff_ne_zero.mpr hn, fun c hc => ?_⟩
    obtain ⟨d, hd, rfl⟩ := List.mem_map.mp hc
    exact (isDigit_digit (Nat.digits_lt_base (by norm_num) (List.mem_reverse.mp hd))).1

theorem length_decimal {n : ℕ} {k : ℕ} (hn : n < 10 ^ (k + 1)) : (decimal n).length ≤ k + 1 := by
  unfold decimal
  split_ifs with h0
  · simp
  · rw [List.length_map, List.length_reverse]
    exact (Nat.digits_length_le_iff (by norm_num) n).mpr hn

/-- The digits of a number stand for it. -/
theorem digitsValue_decimal (n : ℕ) : digitsValue (decimal n) = n := by
  have hfold : ∀ s : List ℕ, (∀ d ∈ s, d < 10) →
      digitsValue (s.reverse.map digit) = Nat.ofDigits 10 s := by
    intro s hs
    unfold digitsValue
    rw [List.foldl_map, List.foldl_reverse]
    induction s with
    | nil => rfl
    | cons d s ih =>
        have hd := (isDigit_digit (hs d (by simp))).2
        rw [List.foldr_cons, ih fun d hd => hs d (by simp [hd]), Nat.ofDigits_cons, hd]
        omega
  unfold decimal
  split_ifs with hn
  · rw [hn]
    decide
  · rw [hfold _ fun d hd => Nat.digits_lt_base (by norm_num) hd, Nat.ofDigits_digits]

/-- The text of an integer. -/
def integerText (n : ℤ) : List UInt8 :=
  (if n < 0 then [ascii '-'] else []) ++ decimal n.natAbs

theorem integerText_injective : Function.Injective integerText := by
  have hminus : isDigit (ascii '-') = false := by decide
  have hinverse : Function.LeftInverse (fun s => if s.head? = some (ascii '-')
      then -(digitsValue s.tail : ℤ) else digitsValue s) integerText := by
    intro n
    obtain ⟨hne, hdigits⟩ := decimal_digits n.natAbs
    simp only [integerText]
    by_cases hneg : n < 0
    · simp only [hneg, if_true, List.singleton_append, List.head?_cons, List.tail_cons,
        digitsValue_decimal]
      omega
    · have hhead : (decimal n.natAbs).head? ≠ some (ascii '-') := by
        intro h
        have hdigit := hdigits _ (List.mem_of_mem_head? h)
        exact Bool.false_ne_true (hminus.symm.trans hdigit)
      simp only [hneg, if_false, List.nil_append, hhead, digitsValue_decimal]
      omega
  exact hinverse.injective

/-- Digits, and a point with zeros. -/
theorem stripZeros_fixed {s : List UInt8} (hs : ∀ c ∈ s, c ≠ ascii '.') :
    stripZeros (s ++ ascii '.' :: List.replicate 4 (ascii '0')) = s := by
  have hdrop : (s ++ ascii '.' :: List.replicate 4 (ascii '0')).dropWhile (· ≠ ascii '.') =
      ascii '.' :: List.replicate 4 (ascii '0') := by
    rw [List.dropWhile_append_of_pos (by simpa using hs)]
    rfl
  have htake : (s ++ ascii '.' :: List.replicate 4 (ascii '0')).takeWhile (· ≠ ascii '.') = s := by
    rw [List.takeWhile_append_of_pos (by simpa using hs)]
    simp
  rw [stripZeros, hdrop]
  simp only [htake]
  have hzeros : decimals ((List.replicate 4 (ascii '0')).takeWhile isDigit) = [] := by decide
  have hrest : (List.replicate 4 (ascii '0')).dropWhile isDigit = [] := by decide
  rw [hzeros, hrest]
  simp

theorem not_digit_point : isDigit (ascii '.') = false := by decide

/-- What `%.4f` prints for a natural number. -/
theorem formatFixed_natCast (m : ℕ) :
    formatFixed m = decimal m ++ ascii '.' :: List.replicate 4 (ascii '0') := by
  have hscaled : roundHalfEven ((m : ℚ) * 10 ^ 4) = m * 10 ^ 4 := by
    have := roundHalfEven_natCast (m * 10 ^ 4)
    push_cast at this
    exact this
  unfold formatFixed
  rw [hscaled]
  norm_num
  rw [show m * 10000 / 1000 % 10 = 0 by omega, show m * 10000 / 100 % 10 = 0 by omega,
    show m * 10000 / 10 % 10 = 0 by omega, show m * 10000 % 10 = 0 by omega]
  rfl

/-- **Integers are printed with their digits.** -/
theorem strNumber_ofInt {n : ℤ} (hn : n.natAbs ≤ 10 ^ 10) :
    strNumber (ofInt n) = integerText n := by
  obtain ⟨hvalue, hsign⟩ := magnitude_encode_natCast (n := n.natAbs) (by omega) (decide (n < 0))
  have hpoint : ∀ c ∈ integerText n, c ≠ ascii '.' := by
    rintro c hc rfl
    rcases List.mem_append.mp hc with hc | hc
    · split_ifs at hc with hneg
      · exact absurd (List.mem_singleton.mp hc) (by decide)
      · simp at hc
    · exact Bool.false_ne_true (not_digit_point.symm.trans ((decimal_digits n.natAbs).2 _ hc))
  unfold strNumber ofInt
  simp only [hvalue, hsign]
  rcases eq_or_ne n 0 with rfl | hn0
  · rw [if_pos (Or.inl (by norm_num))]
    decide
  · have hone : (1 : ℚ) ≤ n.natAbs := by
      exact_mod_cast Nat.one_le_iff_ne_zero.mpr (Int.natAbs_ne_zero.mpr hn0)
    have hmost : (n.natAbs : ℚ) ≤ 10 ^ 10 := by exact_mod_cast hn
    rw [if_neg (by rintro (h | h) <;> linarith), formatFixed_natCast, ← List.append_assoc]
    have htext := stripZeros_fixed hpoint
    unfold integerText at htext
    simpa [integerText] using htext

/-- Digits are scanned up to their end. -/
theorem floatLoop_digits {s : List UInt8} (hs : ∀ c ∈ s, isDigit c = true) (hne : s ≠ [])
    (digits sign point exponent : Bool) :
    floatLoop digits sign point exponent s = some ([], true) := by
  induction s generalizing digits with
  | nil => exact absurd rfl hne
  | cons c s ih =>
      rw [floatLoop, if_pos (hs c (by simp))]
      cases s with
      | nil => rfl
      | cons d s => exact ih (fun c hc => hs c (by simp [hc])) (by simp) true

/-- What `atof` makes of digits, with or without a sign. -/
theorem atof_digits {s : List UInt8} (hs : ∀ c ∈ s, isDigit c = true) (hne : s ≠ []) :
    atof s = encode false (digitsValue s) ∧ atof (ascii '-' :: s) = encode true (digitsValue s) := by
  have hhead : ∀ c, isDigit c = false → s.head? ≠ some c := by
    intro c hc hsome
    have := hs c (List.mem_of_mem_head? hsome)
    exact Bool.false_ne_true (hc.symm.trans this)
  have hminus := hhead (ascii '-') (by decide)
  have hplus := hhead (ascii '+') (by decide)
  have htake : s.takeWhile isDigit = s := List.takeWhile_eq_self_iff.mpr hs
  have hdrop : s.dropWhile isDigit = [] := List.dropWhile_eq_nil_iff.mpr hs
  unfold atof
  constructor
  · simp [hminus, hplus, htake, hdrop, hne]
  · simp [htake, hdrop, hne]

theorem isDigit_facts {c : UInt8} (hc : isDigit c = true) : isSpace c = false ∧ c ≠ ascii '-' ∧
    c ≠ ascii '+' ∧ c ≠ ascii 'x' ∧ c ≠ ascii 'X' := by
  have hall : ∀ c, isDigit c = true → isSpace c = false ∧ c ≠ ascii '-' ∧ c ≠ ascii '+' ∧
      c ≠ ascii 'x' ∧ c ≠ ascii 'X' := by
    refine forall_byte ?_
    decide +kernel
  exact hall c hc

/-- There is no x after the first digit. -/
theorem strValHex_digits {s : List UInt8} (hs : ∀ c ∈ s, isDigit c = true) :
    strValHex s = none ∧ strValHex (ascii '-' :: s) = none := by
  have hminus : isSpace (ascii '-') = false := by decide
  unfold strValHex
  match s with
  | [] => decide
  | [c] =>
      obtain ⟨h1, h2, h3, -⟩ := isDigit_facts (hs c (by simp))
      simp [h1, h2, h3, hminus]
  | c :: d :: s =>
      obtain ⟨h1, h2, h3, -⟩ := isDigit_facts (hs c (by simp))
      obtain ⟨-, -, -, h4, h5⟩ := isDigit_facts (hs d (by simp))
      cases s with
      | nil => simp [h1, h2, h3, hminus]
      | cons e s => simp [h1, h2, h3, h4, h5, hminus]

/-- **The digits of an integer are read as this integer.** -/
theorem strVal_integerText (n : ℤ) : strVal (integerText n) = some (ofInt n) := by
  obtain ⟨hne, hdigits⟩ := decimal_digits n.natAbs
  obtain ⟨hhex, hhex'⟩ := strValHex_digits hdigits
  obtain ⟨hatof, hatof'⟩ := atof_digits hdigits hne
  rw [digitsValue_decimal] at hatof hatof'
  have hfloat := floatLoop_digits hdigits hne
  unfold strVal integerText ofInt
  split_ifs with hneg
  · rw [List.singleton_append, hhex', Option.none_or]
    have hspace : isSpace (ascii '-') = false := by decide
    have hdigit : isDigit (ascii '-') = false := by decide
    have hplus : ascii '-' ≠ ascii '+' := by decide
    simp [strValFloat, hspace, floatLoop, hdigit, hfloat, hatof', hneg]
  · rw [List.nil_append, hhex, Option.none_or]
    obtain ⟨c, s, hcs⟩ := List.exists_cons_of_ne_nil hne
    have hc : isDigit c = true := hdigits c (by simp [hcs])
    have hspace : isSpace c = false := (isDigit_facts hc).1
    rw [hcs] at hfloat hatof ⊢
    simp [strValFloat, hspace, hc, hfloat, hatof, hneg]

end Lush.Text
