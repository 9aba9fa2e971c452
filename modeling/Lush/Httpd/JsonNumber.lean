import Lush.Json.Grammar

/-!
# Integers in texts

`(sprintf "%d" n)` prints an integer with its digits up to ten thousand millions, and with six
digits and an exponent above.  Both are numbers of the grammar (`number_strNumber`), and they
have the value of the integer when its digits after the sixth are zeros (`printedValue_eq_iff`).
-/

namespace Lush.Httpd

open Json Text Binary64

/-! ## Digits -/

theorem isDigit_iff {b : UInt8} : Text.isDigit b = true ↔ Json.IsDigit b := by
  rw [Text.isDigit, Bool.and_eq_true, decide_eq_true_eq, decide_eq_true_eq]
  rfl

theorem digitsValue_append (s t : List UInt8) :
    digitsValue (s ++ t) = digitsValue s * 10 ^ t.length + digitsValue t := by
  have hfold : ∀ (t : List UInt8) (v : ℕ),
      t.foldl (fun value c => 10 * value + (c.toNat - 48)) v = v * 10 ^ t.length + digitsValue t := by
    intro t
    induction t with
    | nil => intro v; simp [digitsValue]
    | cons c t ih =>
        intro v
        have hcons : digitsValue (c :: t) =
            (10 * 0 + (c.toNat - 48)) * 10 ^ t.length + digitsValue t := ih _
        rw [List.foldl_cons, ih, hcons, List.length_cons, pow_succ]
        ring
  rw [digitsValue, List.foldl_append, hfold]
  rfl

theorem digitsValue_zeros (k : ℕ) : digitsValue (List.replicate k (ascii '0')) = 0 := by
  have hzero : (ascii '0').toNat - 48 = 0 := by decide
  induction k with
  | zero => rfl
  | succ k ih =>
      rw [digitsValue, List.replicate_succ, List.foldl_cons, hzero]
      exact ih

theorem allDigits_decimal (n : ℕ) : AllDigits (Text.decimal n) := by
  obtain ⟨hne, hdigits⟩ := decimal_digits n
  exact ⟨hne, fun b hb => isDigit_iff.mp (hdigits b hb)⟩

theorem digit_ne_zero {d : ℕ} (hd : d < 10) (h : d ≠ 0) : digit d ≠ 0x30 := by
  intro heq
  have hnat := (isDigit_digit hd).2
  rw [heq] at hnat
  have hzero : (0x30 : UInt8).toNat = 48 := rfl
  omega

/-- There is no zero before other digits. -/
theorem digits_decimal (n : ℕ) : Digits (Text.decimal n) := by
  obtain ⟨hne, hdigits⟩ := allDigits_decimal n
  refine ⟨hne, hdigits, fun hhead => ?_⟩
  unfold Text.decimal at hhead ⊢
  split_ifs at hhead ⊢ with hn
  · rfl
  · have hnil : Nat.digits 10 n ≠ [] := Nat.digits_ne_nil_iff_ne_zero.mpr hn
    rw [List.head?_map, List.head?_reverse, List.getLast?_eq_some_getLast hnil,
      Option.map_some] at hhead
    have hlt := Nat.digits_lt_base (by norm_num) (List.getLast_mem hnil)
    exact absurd (Option.some.inj hhead) (digit_ne_zero hlt (Nat.getLast_digit_ne_zero 10 hn))

theorem length_decimal_eq {n k : ℕ} (hle : 10 ^ k ≤ n) (hlt : n < 10 ^ (k + 1)) :
    (Text.decimal n).length = k + 1 := by
  have hn : n ≠ 0 := (Nat.pos_of_ne_zero (by positivity : 10 ^ k ≠ 0)).trans_le hle |>.ne'
  have hgt := (Nat.lt_digits_length_iff (by norm_num) n).mpr hle
  have hmost := (Nat.digits_length_le_iff (by norm_num) n).mpr hlt
  rw [Text.decimal, if_neg hn, List.length_map, List.length_reverse]
  omega

/-- The zeros at the end are removed. -/
theorem rdropWhile_zeros (s : List UInt8) :
    ∃ k, s = s.rdropWhile (· = ascii '0') ++ List.replicate k (ascii '0') := by
  induction s using List.reverseRecOn with
  | nil => exact ⟨0, rfl⟩
  | append_singleton s c ih =>
      rw [List.rdropWhile_concat]
      split_ifs with hc
      · obtain ⟨k, hk⟩ := ih
        refine ⟨k + 1, ?_⟩
        rw [List.replicate_succ', ← List.append_assoc, ← hk, of_decide_eq_true hc]
      · exact ⟨0, (List.append_nil _).symm⟩

/-! ## Six digits and an exponent -/

/-- Six digits, without the zeros at the end, and an exponent. -/
def general (m x : ℕ) : List UInt8 :=
  (Text.decimal m).take 1 ++
    (decimals ((Text.decimal m).drop 1) ++ ascii 'e' :: ascii '+' :: Text.decimal x)

/-- The parts of the text. -/
theorem general_parts {m : ℕ} (hle : 10 ^ 5 ≤ m) (hlt : m < 10 ^ 6) :
    ∃ d part k, (Text.decimal m).take 1 = [d] ∧
      (Text.decimal m).drop 1 = part ++ List.replicate k (ascii '0') ∧
      part = ((Text.decimal m).drop 1).rdropWhile (· = ascii '0') ∧
      part.length + k = 5 ∧ (∀ b ∈ d :: part, Json.IsDigit b) ∧
      digitsValue (d :: part) * 10 ^ k = m := by
  have hlength := length_decimal_eq hle hlt
  obtain ⟨hne, hdigits⟩ := allDigits_decimal m
  obtain ⟨k, hk⟩ := rdropWhile_zeros ((Text.decimal m).drop 1)
  have hvalue := digitsValue_decimal m
  cases hdecimal : Text.decimal m with
  | nil => exact absurd hdecimal hne
  | cons d rest =>
      rw [hdecimal] at hk hdigits hvalue hlength
      rw [List.drop_one, List.tail_cons] at hk
      refine ⟨d, rest.rdropWhile (· = ascii '0'), k, rfl, hk, rfl, ?_, ?_, ?_⟩
      · have hlen := congrArg List.length hk
        rw [List.length_append, List.length_replicate] at hlen
        rw [List.length_cons] at hlength
        omega
      · intro b hb
        refine hdigits b ?_
        rcases List.mem_cons.mp hb with rfl | hb
        · exact List.mem_cons_self
        · rw [hk]
          exact List.mem_cons_of_mem _ (List.mem_append_left _ hb)
      · rw [← hvalue]
        nth_rewrite 2 [hk]
        rw [← List.cons_append, digitsValue_append, digitsValue_zeros, List.length_replicate,
          Nat.add_zero]

/-- **The text is a number.** -/
theorem number_general {m : ℕ} (x : ℕ) (hle : 10 ^ 5 ≤ m) (hlt : m < 10 ^ 6) :
    ∃ whole f frac e k, Digits whole ∧ Fraction f frac ∧ Exponent e k ∧
      general m x = whole ++ (f ++ e) ∧
      decimalValue whole frac k = (m : ℚ) * 10 ^ ((x : ℤ) - 5) := by
  obtain ⟨d, part, k, htake, hdrop, hpart, hlength, hdigits, hvalue⟩ := general_parts hle hlt
  have hwhole : Digits [d] := by
    refine ⟨List.cons_ne_nil _ _, fun b hb => ?_, fun h => by rw [Option.some.inj h]⟩
    exact hdigits b (by rw [List.mem_singleton.mp hb]; exact List.mem_cons_self)
  have hfraction : Fraction (decimals ((Text.decimal m).drop 1)) part := by
    rw [decimals, ← hpart]
    cases hcases : part with
    | nil => exact .none
    | cons b part' =>
        refine .some ⟨List.cons_ne_nil _ _, fun c hc => hdigits c (List.mem_cons_of_mem _ ?_)⟩
        rw [hcases]
        exact hc
  refine ⟨[d], _, part, ascii 'e' :: ascii '+' :: Text.decimal x, _, hwhole, hfraction,
    .plus (.inl rfl) (allDigits_decimal x), by rw [general, htake], ?_⟩
  have hk : (x : ℤ) - part.length = k + ((x : ℤ) - 5) := by omega
  rw [decimalValue, digitsValue_decimal, hk, zpow_add₀ (by norm_num), zpow_natCast, ← mul_assoc,
    ← hvalue]
  push_cast
  rfl

/-- A text without a point. -/
theorem stripZeros_of_not_mem {s : List UInt8} (h : ∀ b ∈ s, b ≠ ascii '.') :
    stripZeros s = s := by
  have hdrop : s.dropWhile (· ≠ ascii '.') = [] :=
    List.dropWhile_eq_nil_iff.mpr fun b hb => decide_eq_true (h b hb)
  rw [stripZeros, hdrop]

/-- A text with a point, digits without zeros at the end, and a letter after them. -/
theorem stripZeros_point {s part e : List UInt8} (hs : ∀ b ∈ s, b ≠ ascii '.')
    (hpart : ∀ b ∈ part, Json.IsDigit b) (hzeros : decimals part = ascii '.' :: part)
    (he : ∀ b ∈ e.head?, Text.isDigit b = false) :
    stripZeros (s ++ ascii '.' :: (part ++ e)) = s ++ ascii '.' :: (part ++ e) := by
  have hdrop : (s ++ ascii '.' :: (part ++ e)).dropWhile (· ≠ ascii '.') =
      ascii '.' :: (part ++ e) := by
    rw [List.dropWhile_append_of_pos (by simpa using hs)]
    rfl
  have htake : (s ++ ascii '.' :: (part ++ e)).takeWhile (· ≠ ascii '.') = s := by
    rw [List.takeWhile_append_of_pos (by simpa using hs)]
    simp
  have hdigit : ∀ b ∈ part, Text.isDigit b = true := fun b hb => isDigit_iff.mpr (hpart b hb)
  have hrest : e.takeWhile Text.isDigit = [] ∧ e.dropWhile Text.isDigit = e := by
    cases e with
    | nil => exact ⟨rfl, rfl⟩
    | cons b e =>
        have hb := he b rfl
        exact ⟨by rw [List.takeWhile_cons_of_neg (by simp [hb])],
          by rw [List.dropWhile_cons_of_neg (by simp [hb])]⟩
  rw [stripZeros, hdrop]
  simp only [htake]
  rw [List.takeWhile_append_of_pos hdigit, List.dropWhile_append_of_pos hdigit, hrest.1, hrest.2,
    List.append_nil, hzeros]
  simp

/-- There are no zeros to remove. -/
theorem stripZeros_general {m : ℕ} (x : ℕ) (hle : 10 ^ 5 ≤ m) (hlt : m < 10 ^ 6)
    {sign : List UInt8} (hsign : ∀ b ∈ sign, b ≠ ascii '.') :
    stripZeros (sign ++ general m x) = sign ++ general m x := by
  obtain ⟨d, part, k, htake, hdrop, hpart, hlength, hdigits, hvalue⟩ := general_parts hle hlt
  have hpoint : ∀ {b : UInt8}, Json.IsDigit b → b ≠ ascii '.' := fun hb =>
    hb.ne (by decide)
  have hhead : ∀ b ∈ sign ++ [d], b ≠ ascii '.' := by
    intro b hb
    rcases List.mem_append.mp hb with hb | hb
    · exact hsign b hb
    · rw [List.mem_singleton.mp hb]
      exact hpoint (hdigits d List.mem_cons_self)
  rw [general, htake, ← List.append_assoc]
  cases hcases : part with
  | nil =>
      have hnone : decimals ((Text.decimal m).drop 1) = [] := by
        rw [decimals, ← hpart, hcases]
      rw [hnone, List.nil_append]
      refine stripZeros_of_not_mem fun b hb => ?_
      rcases List.mem_append.mp hb with hb | hb
      · exact hhead b hb
      rcases List.mem_cons.mp hb with rfl | hb
      · decide
      rcases List.mem_cons.mp hb with rfl | hb
      · decide
      · exact hpoint ((allDigits_decimal x).digit b hb)
  | cons b part' =>
      have hsome : decimals ((Text.decimal m).drop 1) = ascii '.' :: part := by
        rw [decimals, ← hpart, hcases]
      have hzeros : decimals part = ascii '.' :: part := by
        have hidem : part.rdropWhile (· = ascii '0') = part := by
          nth_rewrite 1 [hpart]
          rw [List.rdropWhile_idempotent, ← hpart]
        rw [decimals, hidem, hcases]
      rw [hsome, List.cons_append]
      refine stripZeros_point hhead (fun c hc => hdigits c (List.mem_cons_of_mem _ hc)) hzeros ?_
      intro c hc
      obtain rfl := Option.some.inj hc
      decide

/-! ## Large integers -/

/-- The size of what is printed for a large number: six digits are kept. -/
def sixDigits (n : ℕ) : ℚ :=
  roundHalfEven ((n : ℚ) / 10 ^ ((Nat.log 10 n : ℤ) - 5)) * 10 ^ ((Nat.log 10 n : ℤ) - 5)

theorem roundHalfEven_bounds (q : ℚ) : ⌊q⌋₊ ≤ roundHalfEven q ∧ roundHalfEven q ≤ ⌊q⌋₊ + 1 := by
  unfold roundHalfEven
  simp only
  split_ifs <;> omega

theorem log_bounds {n : ℕ} (hlarge : 10 ^ 10 < n) (hlt : n < 2 ^ 53) :
    10 ≤ Nat.log 10 n ∧ Nat.log 10 n < 16 :=
  ⟨Nat.le_log_of_pow_le (by norm_num) hlarge.le,
    Nat.log_lt_of_lt_pow (by omega) (hlt.trans (by norm_num))⟩

/-- The exponent counts the digits after the first. -/
theorem zpow_log {n : ℕ} (hlog : 10 ≤ Nat.log 10 n) :
    (10 : ℚ) ^ ((Nat.log 10 n : ℤ) - 5) = ((10 ^ (Nat.log 10 n - 5) : ℕ) : ℚ) := by
  have hsub : (Nat.log 10 n : ℤ) - 5 = ((Nat.log 10 n - 5 : ℕ) : ℤ) := by omega
  rw [hsub, zpow_natCast, Nat.cast_pow, Nat.cast_ofNat]

/-- Six digits are left. -/
theorem six_digits_left {n : ℕ} (hlog : 10 ≤ Nat.log 10 n) (hn : n ≠ 0) :
    10 ^ 5 ≤ n / 10 ^ (Nat.log 10 n - 5) ∧ n / 10 ^ (Nat.log 10 n - 5) < 10 ^ 6 := by
  have hsplit : 5 + (Nat.log 10 n - 5) = Nat.log 10 n := by omega
  have hsplit' : 6 + (Nat.log 10 n - 5) = Nat.log 10 n + 1 := by omega
  constructor
  · rw [Nat.le_div_iff_mul_le (by positivity), ← pow_add, hsplit]
    exact Nat.pow_log_le_self 10 hn
  · rw [Nat.div_lt_iff_lt_mul (by positivity), ← pow_add, hsplit']
    exact Nat.lt_pow_succ_log_self (by norm_num) n

/-- **What is printed for a large number.** -/
theorem formatGeneral_natCast {n : ℕ} (hlarge : 10 ^ 10 < n) (hlt : n < 2 ^ 53) :
    ∃ m x, 10 ^ 5 ≤ m ∧ m < 10 ^ 6 ∧ formatGeneral n = general m x ∧
      (m : ℚ) * 10 ^ ((x : ℤ) - 5) = sixDigits n := by
  obtain ⟨hlog, hlog'⟩ := log_bounds hlarge hlt
  have hn : n ≠ 0 := by omega
  have hx : Int.log 10 (n : ℚ) = Nat.log 10 n := Int.log_natCast 10 n
  obtain ⟨hleft, hleft'⟩ := six_digits_left hlog hn
  obtain ⟨hround, hround'⟩ :=
    roundHalfEven_bounds ((n : ℚ) / 10 ^ ((Nat.log 10 n : ℤ) - 5))
  rw [zpow_log hlog, Nat.floor_div_eq_div] at hround hround'
  have hgeneral : ∀ m x : ℕ, 10 ≤ x → (Text.decimal m).take 1 ++ decimals ((Text.decimal m).drop 1) ++
      ascii 'e' :: (if (x : ℤ) < 0 then ascii '-' else ascii '+') ::
        (if (x : ℤ).natAbs < 10 then ascii '0' :: Text.decimal (x : ℤ).natAbs
          else Text.decimal (x : ℤ).natAbs) = general m x := by
    intro m x hx
    rw [if_neg (by omega), if_neg (by omega), Int.natAbs_natCast, general, List.append_assoc]
  have hnq : (n : ℚ) ≠ 0 := Nat.cast_ne_zero.mpr hn
  set m := roundHalfEven ((n : ℚ) / 10 ^ ((Nat.log 10 n : ℤ) - 5)) with hm
  by_cases hcarry : m = 10 ^ 6
  · refine ⟨10 ^ 5, Nat.log 10 n + 1, le_rfl, by norm_num, ?_, ?_⟩
    · rw [← hgeneral _ _ (by omega), formatGeneral, if_neg hnq, hx]
      simp only [← hm, if_pos hcarry]
      rw [if_neg (by omega), if_neg (by omega)]
      rfl
    · rw [sixDigits, ← hm, hcarry]
      have hexp : ((Nat.log 10 n + 1 : ℕ) : ℤ) - 5 = 1 + ((Nat.log 10 n : ℤ) - 5) := by
        push_cast
        ring
      rw [hexp, zpow_add₀ (by norm_num)]
      push_cast
      ring
  · refine ⟨m, Nat.log 10 n, ?_, ?_, ?_, rfl⟩
    · rw [hm, zpow_log hlog]
      omega
    · have hle : m ≤ 10 ^ 6 := by
        rw [hm, zpow_log hlog]
        omega
      omega
    · rw [← hgeneral _ _ hlog, formatGeneral, if_neg hnq, hx]
      simp only [← hm, if_neg hcarry]
      rw [if_neg (by omega), if_neg (by omega)]

/-! ## Integers -/

/-- The value of the text of an integer. -/
def printedValue (n : ℤ) : ℚ :=
  if n.natAbs ≤ 10 ^ 10 then n
  else if n < 0 then -sixDigits n.natAbs else sixDigits n.natAbs

/-- An integer is not large, or its digits after the sixth are zeros. -/
def KeepsDigits (n : ℤ) : Prop :=
  n.natAbs ≤ 10 ^ 10 ∨ 10 ^ (Nat.log 10 n.natAbs - 5) ∣ n.natAbs

theorem sixDigits_eq_iff {n : ℕ} (hlarge : 10 ^ 10 < n) (hlt : n < 2 ^ 53) :
    sixDigits n = n ↔ 10 ^ (Nat.log 10 n - 5) ∣ n := by
  obtain ⟨hlog, -⟩ := log_bounds hlarge hlt
  rw [sixDigits, zpow_log hlog]
  constructor
  · intro h
    refine Dvd.intro_left (roundHalfEven ((n : ℚ) / (10 ^ (Nat.log 10 n - 5) : ℕ))) ?_
    exact_mod_cast h
  · rintro ⟨c, hc⟩
    have hne : ((10 ^ (Nat.log 10 n - 5) : ℕ) : ℚ) ≠ 0 := by positivity
    have hdiv : (n : ℚ) / (10 ^ (Nat.log 10 n - 5) : ℕ) = c := by
      rw [div_eq_iff hne, mul_comm]
      exact_mod_cast hc
    rw [hdiv, roundHalfEven_natCast, mul_comm]
    exact_mod_cast hc.symm

/-- **The value is kept** exactly by the integers that keep their digits. -/
theorem printedValue_eq_iff {n : ℤ} (hlt : n.natAbs < 2 ^ 53) :
    printedValue n = n ↔ KeepsDigits n := by
  unfold printedValue KeepsDigits
  by_cases hsmall : n.natAbs ≤ 10 ^ 10
  · rw [if_pos hsmall]
    exact ⟨fun _ => .inl hsmall, fun _ => rfl⟩
  · have hiff := sixDigits_eq_iff (by omega) hlt
    rw [if_neg hsmall, or_iff_right hsmall, ← hiff]
    have hcast : ((n.natAbs : ℕ) : ℚ) = |(n : ℚ)| := by
      rw [Nat.cast_natAbs, Int.cast_abs]
    split_ifs with hneg
    · have hq : (n : ℚ) < 0 := by exact_mod_cast hneg
      rw [hcast, abs_of_neg hq, neg_eq_iff_eq_neg]
    · have hq : (0 : ℚ) ≤ n := by exact_mod_cast not_lt.mp hneg
      rw [hcast, abs_of_nonneg hq]

theorem strNumber_large {n : ℤ} (hlarge : 10 ^ 10 < n.natAbs) (hlt : n.natAbs < 2 ^ 53) :
    strNumber (ofInt n) =
      stripZeros ((if n < 0 then [ascii '-'] else []) ++ formatGeneral n.natAbs) := by
  obtain ⟨hvalue, hsign⟩ := magnitude_encode_natCast hlt (decide (n < 0))
  have hq : (10 : ℚ) ^ 10 < n.natAbs := by exact_mod_cast hlarge
  unfold strNumber ofInt
  simp only [hvalue, hsign, decide_eq_true_eq]
  rw [if_pos (Or.inr hq)]

/-- **The text of an integer is a number of the grammar.** -/
theorem number_strNumber {n : ℤ} (hlt : n.natAbs < 2 ^ 53) :
    Number (strNumber (ofInt n)) (printedValue n) := by
  unfold printedValue
  by_cases hsmall : n.natAbs ≤ 10 ^ 10
  · rw [if_pos hsmall, strNumber_ofInt hsmall, integerText]
    have hvalue : decimalValue (Text.decimal n.natAbs) [] 0 = (n.natAbs : ℚ) := by
      rw [decimalValue, List.append_nil, digitsValue_decimal]
      norm_num
    split_ifs with hneg
    · have hnumber := Number.neg (digits_decimal n.natAbs) .none .none
      have hcast : -((n.natAbs : ℕ) : ℚ) = n := by
        rw [Nat.cast_natAbs, abs_of_neg hneg]
        push_cast
        ring
      rw [List.append_nil, List.append_nil, hvalue, hcast] at hnumber
      exact hnumber
    · have hnumber := Number.pos (digits_decimal n.natAbs) .none .none
      have hcast : ((n.natAbs : ℕ) : ℚ) = n := by
        rw [Nat.cast_natAbs, abs_of_nonneg (not_lt.mp hneg)]
      rw [List.append_nil, List.append_nil, hvalue, hcast] at hnumber
      exact hnumber
  · obtain ⟨m, x, hle, hltm, hgeneral, hvalue⟩ := formatGeneral_natCast (by omega) hlt
    obtain ⟨whole, f, frac, e, k, hw, hf, he, htext, hdecimal⟩ := number_general x hle hltm
    rw [if_neg hsmall, strNumber_large (by omega) hlt, hgeneral, ← hvalue, ← hdecimal]
    split_ifs with hneg
    · have hsign : ∀ b ∈ [ascii '-'], b ≠ ascii '.' := by
        intro b hb
        rw [List.mem_singleton.mp hb]
        decide
      rw [stripZeros_general x hle hltm hsign, htext]
      exact .neg hw hf he
    · rw [stripZeros_general x hle hltm (fun b hb => absurd hb List.not_mem_nil), htext]
      exact .pos hw hf he

end Lush.Httpd
