import Lush.Json.MsgType
import Lush.Library.Utf8

/-!
# The grammar of texts

`Derives` is the grammar of values with all forms of numbers; a text is in UTF-8 besides
(`RfcText`).  A text stands for one value (`RfcText.unique`): what a value ends before tells
where it ends, since a number goes on as far as there are characters of numbers, and everything
else ends with a character of its own.
-/

namespace Lush.Json

open Text (digitsValue)
open Unicode (Utf8)

/-! ## Numbers -/

/-- A digit. -/
def IsDigit (b : UInt8) : Prop := 0x30 ≤ b ∧ b ≤ 0x39

instance : DecidablePred IsDigit := fun b => inferInstanceAs (Decidable (0x30 ≤ b ∧ b ≤ 0x39))

/-- Digits, at least one. -/
structure AllDigits (ds : List UInt8) : Prop where
  ne_nil : ds ≠ []
  digit : ∀ b ∈ ds, IsDigit b

/-- A point and digits, with the digits. -/
inductive Fraction : List UInt8 → List UInt8 → Prop
  | none : Fraction [] []
  | some {ds : List UInt8} : AllDigits ds → Fraction (0x2e :: ds) ds

/-- An exponent, with its value. -/
inductive Exponent : List UInt8 → ℤ → Prop
  | none : Exponent [] 0
  | unsigned {e : UInt8} {ds : List UInt8} : e = 0x65 ∨ e = 0x45 → AllDigits ds →
      Exponent (e :: ds) (digitsValue ds)
  | plus {e : UInt8} {ds : List UInt8} : e = 0x65 ∨ e = 0x45 → AllDigits ds →
      Exponent (e :: 0x2b :: ds) (digitsValue ds)
  | minus {e : UInt8} {ds : List UInt8} : e = 0x65 ∨ e = 0x45 → AllDigits ds →
      Exponent (e :: 0x2d :: ds) (-digitsValue ds)

/-- The value of the digits around the point and the exponent. -/
def decimalValue (whole frac : List UInt8) (k : ℤ) : ℚ :=
  digitsValue (whole ++ frac) * 10 ^ (k - frac.length)

/-- A number, with its value. -/
inductive Number : List UInt8 → ℚ → Prop
  | pos {whole f frac e : List UInt8} {k : ℤ} : Digits whole → Fraction f frac → Exponent e k →
      Number (whole ++ (f ++ e)) (decimalValue whole frac k)
  | neg {whole f frac e : List UInt8} {k : ℤ} : Digits whole → Fraction f frac → Exponent e k →
      Number (0x2d :: (whole ++ (f ++ e))) (-decimalValue whole frac k)

/-- The characters of numbers. -/
def NumberChar (b : UInt8) : Prop :=
  IsDigit b ∨ b = 0x2b ∨ b = 0x2d ∨ b = 0x2e ∨ b = 0x45 ∨ b = 0x65

instance : DecidablePred NumberChar := fun b => inferInstanceAs (Decidable (IsDigit b ∨ _))

/-- A row of some kind of characters ends where another character stands. -/
theorem span_inj {p : UInt8 → Prop} {a a' r r' : List UInt8} (ha : ∀ b ∈ a, p b)
    (ha' : ∀ b ∈ a', p b) (hr : ∀ b ∈ r.head?, ¬p b) (hr' : ∀ b ∈ r'.head?, ¬p b)
    (h : a ++ r = a' ++ r') : a = a' ∧ r = r' := by
  induction a generalizing a' with
  | nil =>
      cases a' with
      | nil => exact ⟨rfl, h⟩
      | cons b a' =>
          rw [List.nil_append] at h
          exact absurd (ha' b List.mem_cons_self) (hr b (by rw [h]; rfl))
  | cons b a ih =>
      cases a' with
      | nil =>
          rw [List.nil_append] at h
          exact absurd (ha b List.mem_cons_self) (hr' b (by rw [← h]; rfl))
      | cons b' a' =>
          obtain ⟨rfl, hrest⟩ := List.cons.inj h
          obtain ⟨rfl, hr⟩ := ih (fun c hc => ha c (List.mem_cons_of_mem _ hc))
            (fun c hc => ha' c (List.mem_cons_of_mem _ hc)) hrest
          exact ⟨rfl, hr⟩

theorem Exponent.head {e : List UInt8} {k : ℤ} (h : Exponent e k) :
    ∀ b ∈ e.head?, b = 0x65 ∨ b = 0x45 := by
  cases h with
  | none => exact fun b hb => nomatch hb
  | unsigned he _ | plus he _ | minus he _ =>
      intro b hb
      obtain rfl := Option.some.inj hb
      exact he

theorem Fraction.head {f frac e : List UInt8} {k : ℤ} (h : Fraction f frac) (he : Exponent e k) :
    ∀ b ∈ (f ++ e).head?, b = 0x2e ∨ b = 0x65 ∨ b = 0x45 := by
  cases h with
  | none => exact fun b hb => .inr (he.head b hb)
  | some _ =>
      intro b hb
      obtain rfl := Option.some.inj hb
      exact .inl rfl

theorem not_isDigit_of_head {b : UInt8} (h : b = 0x2e ∨ b = 0x65 ∨ b = 0x45) : ¬IsDigit b := by
  rcases h with rfl | rfl | rfl <;> decide

theorem Exponent.unique {e : List UInt8} {k k' : ℤ} (h : Exponent e k) (h' : Exponent e k') :
    k = k' := by
  -- A sign is not a digit.
  have hplus : ∀ {ds : List UInt8}, ¬AllDigits (0x2b :: ds) := fun hds =>
    absurd (hds.digit _ List.mem_cons_self) (by decide)
  have hminus : ∀ {ds : List UInt8}, ¬AllDigits (0x2d :: ds) := fun hds =>
    absurd (hds.digit _ List.mem_cons_self) (by decide)
  cases h with
  | none =>
      cases h'
      rfl
  | unsigned _ hds =>
      cases h' with
      | unsigned => rfl
      | plus => exact absurd hds hplus
      | minus => exact absurd hds hminus
  | plus _ _ =>
      cases h' with
      | unsigned _ hds => exact absurd hds hplus
      | plus => rfl
  | minus _ _ =>
      cases h' with
      | unsigned _ hds => exact absurd hds hminus
      | minus => rfl

/-- The parts of a number without its sign. -/
theorem parts_unique {whole f frac e whole' f' frac' e' : List UInt8} {k k' : ℤ}
    (hw : Digits whole) (hf : Fraction f frac) (he : Exponent e k) (hw' : Digits whole')
    (hf' : Fraction f' frac') (he' : Exponent e' k')
    (h : whole ++ (f ++ e) = whole' ++ (f' ++ e')) :
    decimalValue whole frac k = decimalValue whole' frac' k' := by
  obtain ⟨rfl, hrest⟩ := span_inj (p := IsDigit) hw.digit hw'.digit
    (fun b hb => not_isDigit_of_head (hf.head he b hb))
    (fun b hb => not_isDigit_of_head (hf'.head he' b hb)) h
  have hpoint : ∀ {e : List UInt8} {k : ℤ} {ds : List UInt8}, Exponent e k → e ≠ 0x2e :: ds := by
    rintro e k ds he rfl
    rcases he.head 0x2e rfl with h | h <;> exact absurd h (by decide)
  cases hf with
  | none =>
      cases hf' with
      | none =>
          rw [List.nil_append, List.nil_append] at hrest
          subst hrest
          rw [he.unique he']
      | some hds => exact absurd hrest (hpoint he)
  | some hds =>
      cases hf' with
      | none => exact absurd hrest.symm (hpoint he')
      | some hds' =>
          obtain ⟨rfl, rfl⟩ := span_inj (p := IsDigit) hds.digit hds'.digit
            (fun b hb => not_isDigit_of_head (.inr (he.head b hb)))
            (fun b hb => not_isDigit_of_head (.inr (he'.head b hb))) (List.cons.inj hrest).2
          rw [he.unique he']

/-- Digits do not start with a sign. -/
theorem Digits.ne_minus {whole r t : List UInt8} (h : Digits whole) : whole ++ r ≠ 0x2d :: t := by
  intro heq
  cases whole with
  | nil => exact h.ne_nil rfl
  | cons b whole =>
      obtain ⟨rfl, -⟩ := List.cons.inj heq
      exact absurd (h.digit _ List.mem_cons_self) (by decide)

/-- **A number has one value.** -/
theorem Number.unique {s : List UInt8} {x x' : ℚ} (h : Number s x) (h' : Number s x') :
    x = x' := by
  obtain ⟨s', hs'⟩ : ∃ s', s' = s := ⟨s, rfl⟩
  rw [← hs'] at h'
  cases h with
  | pos hw hf he =>
      cases h' with
      | pos hw' hf' he' => exact parts_unique hw hf he hw' hf' he' hs'.symm
      | neg hw' hf' he' => exact absurd hs'.symm hw.ne_minus
  | neg hw hf he =>
      cases h' with
      | pos hw' hf' he' => exact absurd hs' hw'.ne_minus
      | neg hw' hf' he' =>
          rw [parts_unique hw hf he hw' hf' he' (List.cons.inj hs'.symm).2]

theorem numberChar_of_digit {b : UInt8} (h : IsDigit b) : NumberChar b := .inl h

theorem Number.chars {s : List UInt8} {x : ℚ} (h : Number s x) : ∀ b ∈ s, NumberChar b := by
  have hparts : ∀ {whole f frac e : List UInt8} {k : ℤ}, Digits whole → Fraction f frac →
      Exponent e k → ∀ b ∈ whole ++ (f ++ e), NumberChar b := by
    intro whole f frac e k hw hf he b hb
    rcases List.mem_append.mp hb with hb | hb
    · exact .inl (hw.digit b hb)
    rcases List.mem_append.mp hb with hb | hb
    · cases hf with
      | none => cases hb
      | some hds =>
          rcases List.mem_cons.mp hb with rfl | hb
          · exact by decide
          · exact .inl (hds.digit b hb)
    · have hletter : ∀ {c : UInt8}, c = 0x65 ∨ c = 0x45 → NumberChar c := by
        rintro c (rfl | rfl) <;> decide
      cases he with
      | none => cases hb
      | unsigned hc hds =>
          rcases List.mem_cons.mp hb with rfl | hb
          · exact hletter hc
          · exact .inl (hds.digit b hb)
      | plus hc hds | minus hc hds =>
          rcases List.mem_cons.mp hb with rfl | hb
          · exact hletter hc
          rcases List.mem_cons.mp hb with rfl | hb
          · exact by decide
          · exact .inl (hds.digit b hb)
  cases h with
  | pos hw hf he => exact hparts hw hf he
  | neg hw hf he =>
      intro b hb
      rcases List.mem_cons.mp hb with rfl | hb
      · decide
      · exact hparts hw hf he b hb

theorem Number.head {s : List UInt8} {x : ℚ} (h : Number s x) :
    ∃ b s', s = b :: s' ∧ (b = 0x2d ∨ IsDigit b) := by
  cases h with
  | @pos whole f frac e k hw hf he =>
      cases whole with
      | nil => exact absurd rfl hw.ne_nil
      | cons b whole => exact ⟨b, _, rfl, .inr (hw.digit b List.mem_cons_self)⟩
  | neg _ _ _ => exact ⟨0x2d, _, rfl, .inl rfl⟩

/-! ## Strings -/

/-- Each escape stands for one character. -/
theorem escapes_unique {b c c' : UInt8} (h : (b, c) ∈ escapes) (h' : (b, c') ∈ escapes) :
    c = c' := by
  have hall : escapes.all fun p => escapes.all fun p' => decide (p.1 = p'.1 → p.2 = p'.2) := by
    decide
  exact of_decide_eq_true (List.all_eq_true.mp (List.all_eq_true.mp hall _ h) _ h') rfl

theorem not_escape_unicode {c : UInt8} : (0x75, c) ∉ escapes := by
  have hall : escapes.all fun p => decide (p.1 ≠ 0x75) := by decide
  exact fun h => of_decide_eq_true (List.all_eq_true.mp hall _ h) rfl

/-- The four digits after an escape. -/
theorem hex4_append_inj {ds ds' r r' : List UInt8} {c c' : ℕ} (h : hex4 ds = some c)
    (h' : hex4 ds' = some c') (heq : ds ++ r = ds' ++ r') : ds = ds' ∧ c = c' ∧ r = r' := by
  obtain ⟨rfl, hr⟩ := List.append_inj heq ((length_hex4 h).trans (length_hex4 h').symm)
  exact ⟨rfl, Option.some.inj (h.symm.trans h'), hr⟩

/-- **A string ends at one quote**, and has one value. -/
theorem Chars.unique {k k' t t' r r' : List UInt8} (h : Chars k t) (h' : Chars k' t')
    (heq : k ++ 0x22 :: r = k' ++ 0x22 :: r') : k = k' ∧ t = t' ∧ r = r' := by
  have hquote : (0x22 : UInt8) ≠ 0x5c := by decide
  induction h generalizing k' t' with
  | nil =>
      cases h' with
      | nil => exact ⟨rfl, rfl, (List.cons.inj heq).2⟩
      | plain _ hne _ _ => exact absurd (List.cons.inj heq).1.symm hne
      | escape _ _ | unicode _ _ _ | pair _ _ _ _ _ _ _ =>
          exact absurd (List.cons.inj heq).1 hquote
  | plain _ hne hslash _ ih =>
      cases h' with
      | nil => exact absurd (List.cons.inj heq).1 hne
      | plain _ _ _ hchars =>
          obtain ⟨rfl, hrest⟩ := List.cons.inj heq
          obtain ⟨rfl, rfl, hr⟩ := ih hchars hrest
          exact ⟨rfl, rfl, hr⟩
      | escape _ _ | unicode _ _ _ | pair _ _ _ _ _ _ _ =>
          exact absurd (List.cons.inj heq).1 hslash
  | escape hb _ ih =>
      cases h' with
      | nil => exact absurd (List.cons.inj heq).1.symm hquote
      | plain _ _ hslash _ => exact absurd (List.cons.inj heq).1.symm hslash
      | escape hb' hchars =>
          obtain ⟨rfl, hrest⟩ := List.cons.inj (List.cons.inj heq).2
          obtain ⟨rfl, rfl, hr⟩ := ih hchars hrest
          exact ⟨rfl, by rw [escapes_unique hb hb'], hr⟩
      | unicode _ _ _ | pair _ _ _ _ _ _ _ =>
          obtain ⟨rfl, -⟩ := List.cons.inj (List.cons.inj heq).2
          exact absurd hb not_escape_unicode
  | unicode hdigits hscalar _ ih =>
      cases h' with
      | nil => exact absurd (List.cons.inj heq).1.symm hquote
      | plain _ _ hslash _ => exact absurd (List.cons.inj heq).1.symm hslash
      | escape hb' _ =>
          obtain ⟨rfl, -⟩ := List.cons.inj (List.cons.inj heq).2
          exact absurd hb' not_escape_unicode
      | unicode hdigits' _ hchars =>
          have hrest := (List.cons.inj (List.cons.inj heq).2).2
          simp only [List.append_assoc, List.append_eq] at hrest
          obtain ⟨rfl, rfl, hrest⟩ := hex4_append_inj hdigits hdigits' hrest
          obtain ⟨rfl, rfl, hr⟩ := ih hchars hrest
          exact ⟨rfl, rfl, hr⟩
      | pair hhigh hle hlt _ _ _ _ =>
          have hrest := (List.cons.inj (List.cons.inj heq).2).2
          simp only [List.append_assoc, List.append_eq] at hrest
          obtain ⟨-, rfl, -⟩ := hex4_append_inj hdigits hhigh hrest
          exact absurd ⟨hle, hlt.trans (by decide)⟩ hscalar
  | pair hhigh hle hlt hlow hle' hlt' _ ih =>
      cases h' with
      | nil => exact absurd (List.cons.inj heq).1.symm hquote
      | plain _ _ hslash _ => exact absurd (List.cons.inj heq).1.symm hslash
      | escape hb' _ =>
          obtain ⟨rfl, -⟩ := List.cons.inj (List.cons.inj heq).2
          exact absurd hb' not_escape_unicode
      | unicode hdigits hscalar _ =>
          have hrest := (List.cons.inj (List.cons.inj heq).2).2
          simp only [List.append_assoc, List.append_eq] at hrest
          obtain ⟨-, rfl, -⟩ := hex4_append_inj hhigh hdigits hrest
          exact absurd ⟨hle, hlt.trans (by decide)⟩ hscalar
      | pair hhigh' _ _ hlow' _ _ hchars =>
          have hrest := (List.cons.inj (List.cons.inj heq).2).2
          simp only [List.append_assoc, List.append_eq, List.cons_append] at hrest
          obtain ⟨rfl, rfl, hrest⟩ := hex4_append_inj hhigh hhigh' hrest
          have hrest := (List.cons.inj (List.cons.inj hrest).2).2
          obtain ⟨rfl, rfl, hrest⟩ := hex4_append_inj hlow hlow' hrest
          obtain ⟨rfl, rfl, hr⟩ := ih hchars hrest
          exact ⟨rfl, rfl, hr⟩

/-! ## Values -/

/-- The texts of values, and of what stands between brackets. -/
inductive Derives : List UInt8 → Item → Prop
  | null : Derives [0x6e, 0x75, 0x6c, 0x6c] (.value .null)
  | true : Derives [0x74, 0x72, 0x75, 0x65] (.value (.bool true))
  | false : Derives [0x66, 0x61, 0x6c, 0x73, 0x65] (.value (.bool false))
  | number {s : List UInt8} {x : ℚ} : Number s x → Derives s (.value (.real x))
  | str {k t : List UInt8} : Chars k t → Derives (0x22 :: (k ++ [0x22])) (.value (.str t))
  | noElements {w : List UInt8} : Space w → Derives (0x5b :: (w ++ [0x5d])) (.value (.arr []))
  | arr {s : List UInt8} {vs : List Val} : Derives s (.elements vs) →
      Derives (0x5b :: (s ++ [0x5d])) (.value (.arr vs))
  | noMembers {w : List UInt8} : Space w → Derives (0x7b :: (w ++ [0x7d])) (.value (.obj []))
  | obj {s : List UInt8} {ms : List (List UInt8 × Val)} : Derives s (.members ms) →
      Derives (0x7b :: (s ++ [0x7d])) (.value (.obj ms))
  | lastElement {w s u : List UInt8} {v : Val} : Space w → Derives s (.value v) → Space u →
      Derives (w ++ (s ++ u)) (.elements [v])
  | element {w s u rest : List UInt8} {v : Val} {vs : List Val} : Space w →
      Derives s (.value v) → Space u → Derives rest (.elements vs) →
      Derives (w ++ (s ++ (u ++ 0x2c :: rest))) (.elements (v :: vs))
  | lastMember {w k w' w'' s u key : List UInt8} {v : Val} : Space w → Chars k key → Space w' →
      Space w'' → Derives s (.value v) → Space u →
      Derives (w ++ 0x22 :: (k ++ 0x22 :: (w' ++ 0x3a :: (w'' ++ (s ++ u))))) (.members [(key, v)])
  | member {w k w' w'' s u rest key : List UInt8} {v : Val} {ms : List (List UInt8 × Val)} :
      Space w → Chars k key → Space w' → Space w'' → Derives s (.value v) → Space u →
      Derives rest (.members ms) →
      Derives (w ++ 0x22 :: (k ++ 0x22 :: (w' ++ 0x3a :: (w'' ++ (s ++ (u ++ 0x2c :: rest))))))
        (.members ((key, v) :: ms))

/-- A text in UTF-8, with white space around a value. -/
structure RfcText (text : List UInt8) (v : Val) : Prop where
  utf8 : Utf8 text
  derives : ∃ w s u, Space w ∧ Derives s (.value v) ∧ Space u ∧ text = w ++ (s ++ u)

/-! ## Unambiguity -/

/-- The character that a value starts with. -/
def Val.Starts : Val → UInt8 → Prop
  | .null, b => b = 0x6e
  | .bool true, b => b = 0x74
  | .bool false, b => b = 0x66
  | .int _, _ => False
  | .real _, b => b = 0x2d ∨ IsDigit b
  | .str _, b => b = 0x22
  | .arr _, b => b = 0x5b
  | .obj _, b => b = 0x7b

/-- The kind of a value. -/
def Val.form : Val → ℕ
  | .null => 0
  | .bool true => 1
  | .bool false => 2
  | .int _ => 3
  | .real _ => 4
  | .str _ => 5
  | .arr _ => 6
  | .obj _ => 7

theorem Derives.starts {s : List UInt8} {v : Val} (h : Derives s (.value v)) :
    ∃ b s', s = b :: s' ∧ v.Starts b := by
  cases h with
  | null | true | false | str _ | noElements _ | arr _ | noMembers _ | obj _ =>
      exact ⟨_, _, rfl, rfl⟩
  | number hx => exact hx.head

theorem IsDigit.ne {b c : UInt8} (h : IsDigit b) (hc : ¬IsDigit c) : b ≠ c := by
  rintro rfl
  exact hc h

/-- The first character tells the kind. -/
theorem Val.form_eq {v v' : Val} {b : UInt8} (h : v.Starts b) (h' : v'.Starts b) :
    v.form = v'.form := by
  have hall : ∀ {v : Val} {b : UInt8}, v.Starts b → v.form =
      if b = 0x6e then 0 else if b = 0x74 then 1 else if b = 0x66 then 2
      else if b = 0x22 then 5 else if b = 0x5b then 6 else if b = 0x7b then 7 else 4 := by
    intro v b h
    match v with
    | .null | .bool true | .bool false | .str _ | .arr _ | .obj _ =>
        obtain rfl : b = _ := h
        rfl
    | .int _ => exact h.elim
    | .real _ =>
        rcases h with rfl | hdigit
        · rfl
        · rw [if_neg (hdigit.ne (by decide)), if_neg (hdigit.ne (by decide)),
            if_neg (hdigit.ne (by decide)), if_neg (hdigit.ne (by decide)),
            if_neg (hdigit.ne (by decide)), if_neg (hdigit.ne (by decide))]
          rfl
  rw [hall h, hall h']

/-- No value starts with white space, or with what stands after values. -/
theorem Val.Starts.not_space {v : Val} {b : UInt8} (h : v.Starts b) :
    ¬Space [b] ∧ b ≠ 0x5d := by
  rw [space_singleton]
  match v with
  | .null | .bool true | .bool false | .str _ | .arr _ | .obj _ =>
      obtain rfl : b = _ := h
      exact ⟨by decide, by decide⟩
  | .int _ => exact h.elim
  | .real _ =>
      rcases h with rfl | hdigit
      · exact ⟨by decide, by decide⟩
      · refine ⟨?_, hdigit.ne (by decide)⟩
        rintro (h | h | h | h) <;> exact hdigit.ne (by decide) h

/-- What stands after an item. -/
def Item.Stops : Item → List UInt8 → Prop
  | .value _, r => ∀ b ∈ r.head?, ¬NumberChar b
  | .elements _, r => ∃ r', r = 0x5d :: r'
  | .members _, r => ∃ r', r = 0x7d :: r'

/-- Items of one kind. -/
def Item.SameKind : Item → Item → Prop
  | .value _, .value _ => True
  | .elements _, .elements _ => True
  | .members _, .members _ => True
  | _, _ => False

theorem not_space_quote : ¬Space [0x22] := fun h => absurd (space_singleton.mp h) (by decide)

theorem not_space_comma : ¬Space [0x2c] := fun h => absurd (space_singleton.mp h) (by decide)

theorem not_space_colon : ¬Space [0x3a] := fun h => absurd (space_singleton.mp h) (by decide)

theorem not_space_bracket : ¬Space [0x5d] := fun h => absurd (space_singleton.mp h) (by decide)

theorem not_space_brace : ¬Space [0x7d] := fun h => absurd (space_singleton.mp h) (by decide)

/-- After a value and white space there is no character of a number. -/
theorem stops_space {u r : List UInt8} {v : Val} (hu : Space u)
    (hr : ∀ b ∈ r.head?, ¬NumberChar b) : (Item.value v).Stops (u ++ r) := by
  cases u with
  | nil => exact hr
  | cons c u =>
      intro b hb
      obtain rfl := Option.some.inj hb
      rcases hu _ List.mem_cons_self with rfl | rfl | rfl | rfl <;> decide

/-- What follows the elements before the last. -/
theorem stops_cons {u r : List UInt8} {c : UInt8} {v : Val} (hu : Space u) (hc : ¬NumberChar c) :
    (Item.value v).Stops (u ++ c :: r) := by
  refine stops_space hu fun b hb => ?_
  obtain rfl := Option.some.inj hb
  exact hc

theorem Derives.elements_head {s : List UInt8} {vs : List Val} (h : Derives s (.elements vs)) :
    ∃ w b s', s = w ++ b :: s' ∧ Space w ∧ ¬Space [b] ∧ b ≠ 0x5d := by
  cases h with
  | lastElement hw hs _ | element hw hs _ _ =>
      obtain ⟨b, s', rfl, hb⟩ := hs.starts
      exact ⟨_, b, _, rfl, hw, hb.not_space.1, hb.not_space.2⟩

theorem Derives.members_head {s : List UInt8} {ms : List (List UInt8 × Val)}
    (h : Derives s (.members ms)) : ∃ w s', s = w ++ 0x22 :: s' ∧ Space w := by
  cases h with
  | lastMember hw _ _ _ _ _ | member hw _ _ _ _ _ _ => exact ⟨_, _, rfl, hw⟩

theorem form_eq_of_append {s s' r r' : List UInt8} {v v' : Val} (h : Derives s (.value v))
    (h' : Derives s' (.value v')) (heq : s ++ r = s' ++ r') : v.form = v'.form := by
  obtain ⟨b, t, rfl, hb⟩ := h.starts
  obtain ⟨b', t', rfl, hb'⟩ := h'.starts
  obtain ⟨rfl, -⟩ := List.cons.inj heq
  exact Val.form_eq hb hb'

/-- The first element, its end, and what follows. -/
theorem first_element {w s u r w' s' u' r' : List UInt8} {c c' : UInt8} {v v' : Val}
    (hw : Space w) (hs : Derives s (.value v)) (hu : Space u) (hw' : Space w')
    (hs' : Derives s' (.value v')) (hu' : Space u') (hc : ¬Space [c]) (hc' : ¬Space [c'])
    (hnumber : ¬NumberChar c) (hnumber' : ¬NumberChar c')
    (ih : ∀ {s' : List UInt8} {item' : Item} {r r' : List UInt8}, Derives s' item' →
      (Item.value v).SameKind item' → (Item.value v).Stops r → item'.Stops r' →
      s ++ r = s' ++ r' → s = s' ∧ Item.value v = item' ∧ r = r')
    (heq : w ++ (s ++ (u ++ c :: r)) = w' ++ (s' ++ (u' ++ c' :: r'))) :
    w = w' ∧ s = s' ∧ v = v' ∧ u = u' ∧ c = c' ∧ r = r' := by
  have hfirst : w = w' ∧ s ++ (u ++ c :: r) = s' ++ (u' ++ c' :: r') := by
    obtain ⟨b, t, rfl, hb⟩ := hs.starts
    obtain ⟨b', t', rfl, hb'⟩ := hs'.starts
    obtain ⟨hww', rfl, hrest⟩ := space_append_inj hw hw' hb.not_space.1 hb'.not_space.1 heq
    exact ⟨hww', congrArg (b :: ·) hrest⟩
  obtain ⟨rfl, hvalue⟩ := hfirst
  obtain ⟨rfl, hv, hrest⟩ := ih hs' trivial (stops_cons hu hnumber) (stops_cons hu' hnumber') hvalue
  obtain ⟨rfl, rfl, rfl⟩ := space_append_inj hu hu' hc hc' hrest
  exact ⟨rfl, rfl, Item.value.inj hv, rfl, rfl, rfl⟩

/-- The key of the first member, and what follows. -/
theorem first_key {w k w₁ x w' k' w₁' x' key key' : List UInt8} (hw : Space w)
    (hk : Chars k key) (hw₁ : Space w₁) (hw' : Space w') (hk' : Chars k' key') (hw₁' : Space w₁')
    (heq : w ++ 0x22 :: (k ++ 0x22 :: (w₁ ++ 0x3a :: x)) =
      w' ++ 0x22 :: (k' ++ 0x22 :: (w₁' ++ 0x3a :: x'))) :
    w = w' ∧ k = k' ∧ key = key' ∧ w₁ = w₁' ∧ x = x' := by
  obtain ⟨rfl, -, hkey⟩ := space_append_inj hw hw' not_space_quote not_space_quote heq
  obtain ⟨rfl, rfl, hcolon⟩ := hk.unique hk' hkey
  obtain ⟨rfl, -, hrest⟩ := space_append_inj hw₁ hw₁' not_space_colon not_space_colon hcolon
  exact ⟨rfl, rfl, rfl, rfl, hrest⟩

/-- **What a text derives is unique**, and it ends where the item stops. -/
theorem Derives.unique {s s' r r' : List UInt8} {item item' : Item} (h : Derives s item)
    (h' : Derives s' item') (hkind : item.SameKind item') (hr : item.Stops r)
    (hr' : item'.Stops r') (heq : s ++ r = s' ++ r') : s = s' ∧ item = item' ∧ r = r' := by
  induction h generalizing s' item' r r' with
  | null =>
      cases item' with
      | elements _ | members _ => exact hkind.elim
      | value v' =>
          have hform := form_eq_of_append .null h' heq
          cases h' with
          | null => exact ⟨rfl, rfl, List.append_cancel_left heq⟩
          | _ => exact absurd hform (by simp [Val.form])
  | true =>
      cases item' with
      | elements _ | members _ => exact hkind.elim
      | value v' =>
          have hform := form_eq_of_append .true h' heq
          cases h' with
          | true => exact ⟨rfl, rfl, List.append_cancel_left heq⟩
          | _ => exact absurd hform (by simp [Val.form])
  | false =>
      cases item' with
      | elements _ | members _ => exact hkind.elim
      | value v' =>
          have hform := form_eq_of_append .false h' heq
          cases h' with
          | false => exact ⟨rfl, rfl, List.append_cancel_left heq⟩
          | _ => exact absurd hform (by simp [Val.form])
  | number hx =>
      cases item' with
      | elements _ | members _ => exact hkind.elim
      | value v' =>
          have hform := form_eq_of_append (.number hx) h' heq
          cases h' with
          | number hx' =>
              obtain ⟨rfl, hrest⟩ := span_inj hx.chars hx'.chars hr hr' heq
              rw [hx.unique hx']
              exact ⟨rfl, rfl, hrest⟩
          | _ => exact absurd hform (by simp [Val.form])
  | str hk =>
      cases item' with
      | elements _ | members _ => exact hkind.elim
      | value v' =>
          have hform := form_eq_of_append (.str hk) h' heq
          cases h' with
          | str hk' =>
              simp only [List.cons_append, List.append_assoc, List.nil_append] at heq
              obtain ⟨rfl, rfl, hrest⟩ := hk.unique hk' (List.cons.inj heq).2
              exact ⟨rfl, rfl, hrest⟩
          | _ => exact absurd hform (by simp [Val.form])
  | noElements hw =>
      cases item' with
      | elements _ | members _ => exact hkind.elim
      | value v' =>
          have hform := form_eq_of_append (.noElements hw) h' heq
          cases h' with
          | noElements hw' =>
              simp only [List.cons_append, List.append_assoc, List.nil_append] at heq
              obtain ⟨rfl, -, hrest⟩ := space_append_inj hw hw' not_space_bracket not_space_bracket
                (List.cons.inj heq).2
              exact ⟨rfl, rfl, hrest⟩
          | arr hs' =>
              obtain ⟨w', b, t, rfl, hw', hb, hne⟩ := hs'.elements_head
              simp only [List.cons_append, List.append_assoc, List.nil_append] at heq
              obtain ⟨-, hbracket, -⟩ := space_append_inj hw hw' not_space_bracket hb
                (List.cons.inj heq).2
              exact absurd hbracket.symm hne
          | _ => exact absurd hform (by simp [Val.form])
  | arr hs ih =>
      cases item' with
      | elements _ | members _ => exact hkind.elim
      | value v' =>
          have hform := form_eq_of_append (.arr hs) h' heq
          cases h' with
          | noElements hw' =>
              obtain ⟨w, b, t, rfl, hw, hb, hne⟩ := hs.elements_head
              simp only [List.cons_append, List.append_assoc, List.nil_append] at heq
              obtain ⟨-, hbracket, -⟩ := space_append_inj hw hw' hb not_space_bracket
                (List.cons.inj heq).2
              exact absurd hbracket hne
          | arr hs' =>
              simp only [List.cons_append, List.append_assoc, List.nil_append] at heq
              obtain ⟨rfl, hvs, hrest⟩ := ih hs' trivial ⟨_, rfl⟩ ⟨_, rfl⟩ (List.cons.inj heq).2
              obtain rfl := Item.elements.inj hvs
              exact ⟨rfl, rfl, (List.cons.inj hrest).2⟩
          | _ => exact absurd hform (by simp [Val.form])
  | noMembers hw =>
      cases item' with
      | elements _ | members _ => exact hkind.elim
      | value v' =>
          have hform := form_eq_of_append (.noMembers hw) h' heq
          cases h' with
          | noMembers hw' =>
              simp only [List.cons_append, List.append_assoc, List.nil_append] at heq
              obtain ⟨rfl, -, hrest⟩ := space_append_inj hw hw' not_space_brace not_space_brace
                (List.cons.inj heq).2
              exact ⟨rfl, rfl, hrest⟩
          | obj hs' =>
              obtain ⟨w', t, rfl, hw'⟩ := hs'.members_head
              simp only [List.cons_append, List.append_assoc, List.nil_append] at heq
              obtain ⟨-, hbrace, -⟩ := space_append_inj hw hw' not_space_brace not_space_quote
                (List.cons.inj heq).2
              exact absurd hbrace (by decide)
          | _ => exact absurd hform (by simp [Val.form])
  | obj hs ih =>
      cases item' with
      | elements _ | members _ => exact hkind.elim
      | value v' =>
          have hform := form_eq_of_append (.obj hs) h' heq
          cases h' with
          | noMembers hw' =>
              obtain ⟨w, t, rfl, hw⟩ := hs.members_head
              simp only [List.cons_append, List.append_assoc, List.nil_append] at heq
              obtain ⟨-, hbrace, -⟩ := space_append_inj hw hw' not_space_quote not_space_brace
                (List.cons.inj heq).2
              exact absurd hbrace (by decide)
          | obj hs' =>
              simp only [List.cons_append, List.append_assoc, List.nil_append] at heq
              obtain ⟨rfl, hms, hrest⟩ := ih hs' trivial ⟨_, rfl⟩ ⟨_, rfl⟩ (List.cons.inj heq).2
              obtain rfl := Item.members.inj hms
              exact ⟨rfl, rfl, (List.cons.inj hrest).2⟩
          | _ => exact absurd hform (by simp [Val.form])
  | lastElement hw hs hu ih =>
      obtain ⟨r, rfl⟩ := hr
      cases item' with
      | value _ | members _ => exact hkind.elim
      | elements vs' =>
          obtain ⟨r', rfl⟩ := hr'
          cases h' with
          | lastElement hw' hs' hu' =>
              simp only [List.append_assoc] at heq
              obtain ⟨rfl, rfl, rfl, rfl, -, rfl⟩ := first_element hw hs hu hw' hs' hu'
                not_space_bracket not_space_bracket (by decide) (by decide) ih heq
              exact ⟨rfl, rfl, rfl⟩
          | element hw' hs' hu' hrest' =>
              simp only [List.append_assoc, List.cons_append] at heq
              obtain ⟨-, -, -, -, hc, -⟩ := first_element hw hs hu hw' hs' hu'
                not_space_bracket not_space_comma (by decide) (by decide) ih heq
              exact absurd hc (by decide)
  | element hw hs hu hrest ih ih' =>
      cases item' with
      | value _ | members _ => exact hkind.elim
      | elements vs' =>
          cases h' with
          | lastElement hw' hs' hu' =>
              obtain ⟨r', rfl⟩ := hr'
              simp only [List.append_assoc, List.cons_append] at heq
              obtain ⟨-, -, -, -, hc, -⟩ := first_element hw hs hu hw' hs' hu'
                not_space_comma not_space_bracket (by decide) (by decide) ih heq
              exact absurd hc (by decide)
          | element hw' hs' hu' hrest' =>
              simp only [List.append_assoc, List.cons_append] at heq
              obtain ⟨rfl, rfl, rfl, rfl, -, hmore⟩ := first_element hw hs hu hw' hs' hu'
                not_space_comma not_space_comma (by decide) (by decide) ih heq
              obtain ⟨rfl, hvs, hend⟩ := ih' hrest' trivial hr hr' hmore
              obtain rfl := Item.elements.inj hvs
              exact ⟨rfl, rfl, hend⟩
  | lastMember hw hk hw₁ hw₂ hs hu ih =>
      obtain ⟨r, rfl⟩ := hr
      cases item' with
      | value _ | elements _ => exact hkind.elim
      | members ms' =>
          obtain ⟨r', rfl⟩ := hr'
          cases h' with
          | lastMember hw' hk' hw₁' hw₂' hs' hu' =>
              simp only [List.append_assoc, List.cons_append] at heq
              obtain ⟨rfl, rfl, rfl, rfl, hvalue⟩ := first_key hw hk hw₁ hw' hk' hw₁' heq
              obtain ⟨rfl, rfl, rfl, rfl, -, rfl⟩ := first_element hw₂ hs hu hw₂' hs' hu'
                not_space_brace not_space_brace (by decide) (by decide) ih hvalue
              exact ⟨rfl, rfl, rfl⟩
          | member hw' hk' hw₁' hw₂' hs' hu' hrest' =>
              simp only [List.append_assoc, List.cons_append] at heq
              obtain ⟨-, -, -, -, hvalue⟩ := first_key hw hk hw₁ hw' hk' hw₁' heq
              obtain ⟨-, -, -, -, hc, -⟩ := first_element hw₂ hs hu hw₂' hs' hu'
                not_space_brace not_space_comma (by decide) (by decide) ih hvalue
              exact absurd hc (by decide)
  | member hw hk hw₁ hw₂ hs hu hrest ih ih' =>
      cases item' with
      | value _ | elements _ => exact hkind.elim
      | members ms' =>
          cases h' with
          | lastMember hw' hk' hw₁' hw₂' hs' hu' =>
              obtain ⟨r', rfl⟩ := hr'
              simp only [List.append_assoc, List.cons_append] at heq
              obtain ⟨-, -, -, -, hvalue⟩ := first_key hw hk hw₁ hw' hk' hw₁' heq
              obtain ⟨-, -, -, -, hc, -⟩ := first_element hw₂ hs hu hw₂' hs' hu'
                not_space_comma not_space_brace (by decide) (by decide) ih hvalue
              exact absurd hc (by decide)
          | member hw' hk' hw₁' hw₂' hs' hu' hrest' =>
              simp only [List.append_assoc, List.cons_append] at heq
              obtain ⟨rfl, rfl, rfl, rfl, hvalue⟩ := first_key hw hk hw₁ hw' hk' hw₁' heq
              obtain ⟨rfl, rfl, rfl, rfl, -, hmore⟩ := first_element hw₂ hs hu hw₂' hs' hu'
                not_space_comma not_space_comma (by decide) (by decide) ih hvalue
              obtain ⟨rfl, hms, hend⟩ := ih' hrest' trivial hr hr' hmore
              obtain rfl := Item.members.inj hms
              exact ⟨rfl, rfl, hend⟩

/-- White space is no number. -/
theorem stops_of_space {u : List UInt8} {v : Val} (hu : Space u) : (Item.value v).Stops u := by
  have h := stops_space (v := v) (r := []) hu (fun b hb => nomatch hb)
  rwa [List.append_nil] at h

/-- **A text has one value.** -/
theorem RfcText.unique {text : List UInt8} {v v' : Val} (h : RfcText text v)
    (h' : RfcText text v') : v = v' := by
  obtain ⟨w, s, u, hw, hs, hu, rfl⟩ := h.derives
  obtain ⟨w', s', u', hw', hs', hu', heq⟩ := h'.derives
  obtain ⟨b, t, rfl, hb⟩ := hs.starts
  obtain ⟨b', t', rfl, hb'⟩ := hs'.starts
  obtain ⟨-, rfl, hrest⟩ := space_append_inj hw hw' hb.not_space.1 hb'.not_space.1 heq
  obtain ⟨-, hv, -⟩ := hs.unique hs' trivial (stops_of_space hu) (stops_of_space hu')
    (congrArg (b :: ·) hrest)
  exact Item.value.inj hv

/-! ## Bytes -/

/-- The bytes of texts. -/
def Printable (b : UInt8) : Prop := 0x20 ≤ b ∨ b = 0x09 ∨ b = 0x0a ∨ b = 0x0d

instance : DecidablePred Printable := fun b => inferInstanceAs (Decidable (0x20 ≤ b ∨ _))

theorem printable_of_all {s : List UInt8} (h : s.all fun b => decide (Printable b)) :
    ∀ b ∈ s, Printable b := fun b hb => of_decide_eq_true (List.all_eq_true.mp h b hb)

theorem Space.printable {w : List UInt8} (h : Space w) : ∀ b ∈ w, Printable b := by
  intro b hb
  rcases h b hb with rfl | rfl | rfl | rfl <;> decide

theorem NumberChar.printable {b : UInt8} (h : NumberChar b) : Printable b := by
  rcases h with ⟨hle, -⟩ | rfl | rfl | rfl | rfl | rfl
  · exact .inl (UInt8.le_trans (by decide) hle)
  all_goals decide

theorem hexDigit_printable {b : UInt8} {n : ℕ} (h : hexDigit b = some n) : Printable b := by
  unfold hexDigit at h
  split_ifs at h with h₁ h₂ h₃
  · exact .inl (UInt8.le_trans (by decide) h₁.1)
  · exact .inl (UInt8.le_trans (by decide) h₂.1)
  · exact .inl (UInt8.le_trans (by decide) h₃.1)

theorem hex4_printable {ds : List UInt8} {n : ℕ} (h : hex4 ds = some n) :
    ∀ b ∈ ds, Printable b := by
  match ds with
  | [a, b, c, d] =>
      cases ha : hexDigit a <;> cases hb : hexDigit b <;> cases hc : hexDigit c <;>
        cases hd : hexDigit d <;> simp [hex4, ha, hb, hc, hd] at h
      simp only [List.forall_mem_cons, List.not_mem_nil, false_imp_iff, implies_true, and_true]
      exact ⟨hexDigit_printable ha, hexDigit_printable hb, hexDigit_printable hc,
        hexDigit_printable hd⟩
  | [] | [_] | [_, _] | [_, _, _] | _ :: _ :: _ :: _ :: _ :: _ => simp [hex4] at h

theorem Chars.printable {k t : List UInt8} (h : Chars k t) : ∀ b ∈ k, Printable b := by
  have hslash : Printable 0x5c := by decide
  have hunicode : Printable 0x75 := by decide
  induction h with
  | nil => exact fun b hb => nomatch hb
  | plain hle _ _ _ ih => exact List.forall_mem_cons.mpr ⟨.inl hle, ih⟩
  | escape hb _ ih =>
      have hall : escapes.all fun p => decide (Printable p.1) := by decide
      have hletter := of_decide_eq_true (List.all_eq_true.mp hall _ hb)
      exact List.forall_mem_cons.mpr ⟨hslash, List.forall_mem_cons.mpr ⟨hletter, ih⟩⟩
  | unicode hdigits _ _ ih =>
      have hds := hex4_printable hdigits
      simp only [List.cons_append, List.forall_mem_cons, List.forall_mem_append]
      exact ⟨hslash, hunicode, hds, ih⟩
  | pair hhigh _ _ hlow _ _ _ ih =>
      have hds := hex4_printable hhigh
      have hds' := hex4_printable hlow
      simp only [List.cons_append, List.append_assoc, List.forall_mem_cons, List.forall_mem_append]
      exact ⟨hslash, hunicode, hds, hslash, hunicode, hds', ih⟩

/-- **No control characters** stand in a text apart from white space. -/
theorem Derives.printable {s : List UInt8} {item : Item} (h : Derives s item) :
    ∀ b ∈ s, Printable b := by
  have hquote : Printable 0x22 := by decide
  have hcomma : Printable 0x2c := by decide
  have hcolon : Printable 0x3a := by decide
  have hbrackets : Printable 0x5b ∧ Printable 0x5d ∧ Printable 0x7b ∧ Printable 0x7d := by decide
  obtain ⟨hopen, hclose, hopen', hclose'⟩ := hbrackets
  have hnil : ∀ b ∈ ([] : List UInt8), Printable b := fun b hb => nomatch hb
  induction h with
  | null | true | false => exact printable_of_all (by decide)
  | number hx => exact fun b hb => (hx.chars b hb).printable
  | str hk =>
      simp only [List.forall_mem_cons, List.forall_mem_append]
      exact ⟨hquote, hk.printable, hquote, hnil⟩
  | noElements hw =>
      simp only [List.forall_mem_cons, List.forall_mem_append]
      exact ⟨hopen, hw.printable, hclose, hnil⟩
  | arr _ ih =>
      simp only [List.forall_mem_cons, List.forall_mem_append]
      exact ⟨hopen, ih, hclose, hnil⟩
  | noMembers hw =>
      simp only [List.forall_mem_cons, List.forall_mem_append]
      exact ⟨hopen', hw.printable, hclose', hnil⟩
  | obj _ ih =>
      simp only [List.forall_mem_cons, List.forall_mem_append]
      exact ⟨hopen', ih, hclose', hnil⟩
  | lastElement hw _ hu ih =>
      simp only [List.forall_mem_append]
      exact ⟨hw.printable, ih, hu.printable⟩
  | element hw _ hu _ ih ih' =>
      simp only [List.forall_mem_cons, List.forall_mem_append]
      exact ⟨hw.printable, ih, hu.printable, hcomma, ih'⟩
  | lastMember hw hk hw₁ hw₂ _ hu ih =>
      simp only [List.forall_mem_cons, List.forall_mem_append]
      exact ⟨hw.printable, hquote, hk.printable, hquote, hw₁.printable, hcolon, hw₂.printable, ih,
        hu.printable⟩
  | member hw hk hw₁ hw₂ _ hu _ ih ih' =>
      simp only [List.forall_mem_cons, List.forall_mem_append]
      exact ⟨hw.printable, hquote, hk.printable, hquote, hw₁.printable, hcolon, hw₂.printable, ih,
        hu.printable, hcomma, ih'⟩

theorem RfcText.printable {text : List UInt8} {v : Val} (h : RfcText text v) :
    ∀ b ∈ text, Printable b := by
  obtain ⟨w, s, u, hw, hs, hu, rfl⟩ := h.derives
  simp only [List.forall_mem_append]
  exact ⟨hw.printable, hs.printable, hu.printable⟩

end Lush.Json
