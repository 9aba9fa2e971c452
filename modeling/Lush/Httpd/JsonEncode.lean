import Lush.Httpd.JsonNumber

/-!
# Writing JSON texts

`json-encode` writes numbers, strings, lists and alists as JSON.  Five characters of strings are
escaped, the others are copied; integers are printed by `sprintf`.  So the text is a JSON text
when all other control characters are missing and the strings are in UTF-8, and it stands for the
value when no integer loses digits besides (`jsonEncode_faithful_iff`).
-/

namespace Lush.Httpd

open Json Text Binary64
open Unicode (Utf8)

/-! ## The encoder -/

/-- What `json-escape` adds for a character. -/
def escapeByte (ch : UInt8) : List UInt8 :=
  if ch = ascii '\\' then [ascii '\\', ascii '\\']
  else if ch = ascii '"' then [ascii '\\', ascii '"']
  else if ch = ascii '\n' then [ascii '\\', ascii 'n']
  else if ch = ascii '\r' then [ascii '\\', ascii 'r']
  else if ch = ascii '\t' then [ascii '\\', ascii 't']
  else [ch]

/-- `json-escape`. -/
def jsonEscape (s : List UInt8) : List UInt8 := s.flatMap escapeByte

/-- A string between quotes. -/
def quoted (s : List UInt8) : List UInt8 := ascii '"' :: (jsonEscape s ++ [ascii '"'])

/-- `(sprintf "%.10g" value)`: ten significant digits, without the zeros at the end. -/
def sprintfTen (value : ℚ) : List UInt8 :=
  let q := |value|
  let x := Int.log 10 q
  let m := roundHalfEven (q / 10 ^ (x - 9))
  let (x, s) := if m = 10 ^ 10 then (x + 1, Text.decimal (10 ^ 9)) else (x, Text.decimal m)
  (if value < 0 then [ascii '-'] else []) ++
    if 0 ≤ x ∧ x < 10 then s.take (x.toNat + 1) ++ decimals (s.drop (x.toNat + 1))
    else if -4 ≤ x ∧ x < 0 then
      ascii '0' :: decimals (List.replicate (-x - 1).toNat (ascii '0') ++ s)
    else
      s.take 1 ++ decimals (s.drop 1) ++ ascii 'e' ::
        (if x < 0 then ascii '-' else ascii '+') ::
        (if x.natAbs < 10 then ascii '0' :: Text.decimal x.natAbs else Text.decimal x.natAbs)

/-- A number: `(sprintf "%d" (int value))` when it is an integer. -/
def encodeNumber (value : ℚ) : List UInt8 :=
  if value = ⌊value⌋ then strNumber (ofInt ⌊value⌋) else sprintfTen value

/-- Strings that look like arrays or objects are passed through. -/
def encodeString (s : List UInt8) : List UInt8 :=
  if s.head? = some (ascii '[') ∨ s.head? = some (ascii '\x7b') then s else quoted s

/-- `(and (consp item) (stringp (car item)))`. -/
def isPair : Value → Bool
  | .cons (.string _) _ => true
  | _ => false

/-- The loop of `_json-alist-p`. -/
def alistLoop : Bool → Value → Except Fault Bool
  | isAlist, .nil => .ok isAlist
  | isAlist, .cons item rest => alistLoop (isAlist && isPair item) rest
  | _, _ => .error (.error "bad list as argument")

/-- `_json-alist-p`. -/
def jsonAlistP (lst : Value) : Except Fault Bool :=
  match lst with
  | .cons (.cons _ _) _ => alistLoop true lst
  | _ => .ok false

mutual

/-- `json-encode`. -/
def jsonEncode : Value → Except Fault (List UInt8)
  | .nil => .ok [ascii 'n', ascii 'u', ascii 'l', ascii 'l']
  | .t => .ok [ascii 't', ascii 'r', ascii 'u', ascii 'e']
  | .number x => .ok (encodeNumber x)
  | .string s => .ok (encodeString s.bytes)
  | .cons item rest => do
      if ← jsonAlistP (.cons item rest) then
        -- `json-encode-alist`
        let out ← encodePair item
        let more ← encodePairs rest
        .ok (ascii '\x7b' :: (out ++ (more ++ [ascii '\x7d'])))
      else
        -- `json-encode-list`
        let out ← jsonEncode item
        let more ← encodeItems rest
        .ok (ascii '[' :: (out ++ (more ++ [ascii ']'])))

/-- The rounds of `json-encode-list` after the first. -/
def encodeItems : Value → Except Fault (List UInt8)
  | .nil => .ok []
  | .cons item rest => do
      let out ← jsonEncode item
      let more ← encodeItems rest
      .ok (ascii ',' :: (out ++ more))
  | _ => .error (.error "bad list as argument")

/-- A round of `json-encode-alist`. -/
def encodePair : Value → Except Fault (List UInt8)
  | .cons (.string key) val => do
      let out ← jsonEncode val
      .ok (quoted key.bytes ++ ascii ':' :: out)
  | _ => .error (.error "not a string")

/-- The rounds of `json-encode-alist` after the first. -/
def encodePairs : Value → Except Fault (List UInt8)
  | .nil => .ok []
  | .cons pair rest => do
      let out ← encodePair pair
      let more ← encodePairs rest
      .ok (ascii ',' :: (out ++ more))
  | _ => .error (.error "bad list as argument")

end

/-! ## What is encoded -/

mutual

/-- `()`, `t`, integers below `2 ^ 53`, strings that are not passed through, proper lists, and
alists with strings as keys. -/
def Encodable : Value → Prop
  | .nil => True
  | .t => True
  | .number x => ∃ n : ℤ, n.natAbs < 2 ^ 53 ∧ x = n
  | .string s => s.bytes.head? ≠ some (ascii '[') ∧ s.bytes.head? ≠ some (ascii '\x7b')
  | .cons item rest => Encodable item ∧ EncodableItems rest ∨ EncodablePair item ∧ EncodablePairs rest

def EncodableItems : Value → Prop
  | .nil => True
  | .cons item rest => Encodable item ∧ EncodableItems rest
  | _ => False

def EncodablePair : Value → Prop
  | .cons (.string _) val => Encodable val
  | _ => False

def EncodablePairs : Value → Prop
  | .nil => True
  | .cons pair rest => EncodablePair pair ∧ EncodablePairs rest
  | _ => False

end

/-- A text in UTF-8 without control characters, apart from white space. -/
def Clean (s : List UInt8) : Prop := Utf8 s ∧ ∀ b ∈ s, Printable b

/-- The strings are in UTF-8, and have no control characters that are not escaped. -/
def Legible : Value → Prop
  | .string s => Clean s.bytes
  | .cons car cdr => Legible car ∧ Legible cdr
  | _ => True

/-- The integers keep their digits. -/
def Exact : Value → Prop
  | .number x => KeepsDigits ⌊x⌋
  | .cons car cdr => Exact car ∧ Exact cdr
  | _ => True

/-- The encoder returns a text, and the text stands for the value. -/
def Faithful (v : Value) : Prop :=
  ∃ text d, jsonEncode v = .ok text ∧ RfcText text d ∧ lispValue d = v

/-! ## Clean texts -/

/-- What separates the parts of texts. -/
def Separator (c : UInt8) : Prop := c < 0x80 ∧ Printable c

instance : DecidablePred Separator := fun _ => inferInstanceAs (Decidable (_ ∧ _))

variable {a b s : List UInt8} {c : UInt8}

theorem clean_nil : Clean [] := ⟨Unicode.utf8_nil, fun _ hb => absurd hb List.not_mem_nil⟩

theorem clean_cons_iff (hc : Separator c) : Clean (c :: s) ↔ Clean s := by
  unfold Clean
  rw [Unicode.utf8_cons_iff hc.1, List.forall_mem_cons, and_iff_right hc.2]

theorem clean_append_iff (hb : ∀ c ∈ b.head?, Separator c) :
    Clean (a ++ b) ↔ Clean a ∧ Clean b := by
  unfold Clean
  rw [Unicode.utf8_append_iff fun c hc => (hb c hc).1, List.forall_mem_append]
  exact and_and_and_comm

theorem clean_append_cons_iff (hc : Separator c) : Clean (a ++ c :: b) ↔ Clean a ∧ Clean b := by
  have hhead : ∀ c' ∈ (c :: b).head?, Separator c' := by
    intro c' hc'
    rwa [← Option.some.inj hc']
  rw [clean_append_iff hhead, clean_cons_iff hc]

theorem clean_of_separators (hs : ∀ b ∈ s, Separator b) : Clean s := by
  induction s with
  | nil => exact clean_nil
  | cons c s ih =>
      rw [clean_cons_iff (hs c List.mem_cons_self)]
      exact ih fun b hb => hs b (List.mem_cons_of_mem _ hb)

theorem clean_of_all (hs : s.all fun b => decide (Separator b)) : Clean s :=
  clean_of_separators fun b hb => of_decide_eq_true (List.all_eq_true.mp hs b hb)

/-! ## Strings -/

/-- A character is escaped, or copied. -/
theorem escapeByte_cases (ch : UInt8) :
    (∃ c, escapeByte ch = [0x5c, c] ∧ (c, ch) ∈ escapes ∧ Separator c ∧ Separator ch) ∨
      escapeByte ch = [ch] ∧ ch ≠ 0x22 ∧ ch ≠ 0x5c ∧ (Printable ch → 0x20 ≤ ch) := by
  unfold escapeByte
  split_ifs with h₁ h₂ h₃ h₄ h₅
  · exact .inl ⟨_, rfl, by rw [h₁]; decide, by decide, by rw [h₁]; decide⟩
  · exact .inl ⟨_, rfl, by rw [h₂]; decide, by decide, by rw [h₂]; decide⟩
  · exact .inl ⟨_, rfl, by rw [h₃]; decide, by decide, by rw [h₃]; decide⟩
  · exact .inl ⟨_, rfl, by rw [h₄]; decide, by decide, by rw [h₄]; decide⟩
  · exact .inl ⟨_, rfl, by rw [h₅]; decide, by decide, by rw [h₅]; decide⟩
  · refine .inr ⟨rfl, h₂, h₁, fun hprintable => ?_⟩
    rcases hprintable with h | h | h | h
    · exact h
    · exact absurd h h₅
    · exact absurd h h₃
    · exact absurd h h₄

/-- **Escaping keeps texts clean**, and makes none clean. -/
theorem clean_append_jsonEscape_iff : Clean (a ++ jsonEscape s) ↔ Clean (a ++ s) := by
  have hslash : Separator 0x5c := by decide
  induction s generalizing a with
  | nil => rfl
  | cons ch s ih =>
      rcases escapeByte_cases ch with ⟨c, hescape, -, hc, hch⟩ | ⟨hcopy, -⟩
      · have hs : Clean (jsonEscape s) ↔ Clean s := ih (a := [])
        rw [jsonEscape, List.flatMap_cons, hescape, ← jsonEscape, List.cons_append,
          clean_append_cons_iff hslash, clean_append_cons_iff hch, List.singleton_append,
          clean_cons_iff hc, hs]
      · have happend := ih (a := a ++ [ch])
        rw [List.append_assoc, List.append_assoc] at happend
        rw [jsonEscape, List.flatMap_cons, hcopy]
        exact happend

theorem clean_quoted_iff : Clean (quoted s) ↔ Clean s := by
  have hquote : Separator (ascii '"') := by decide
  have hs : Clean (jsonEscape s) ↔ Clean s := clean_append_jsonEscape_iff (a := [])
  rw [quoted, clean_cons_iff hquote, clean_append_cons_iff hquote, hs, and_iff_left clean_nil]

/-- The escaped characters stand for the string. -/
theorem chars_jsonEscape (hs : ∀ b ∈ s, Printable b) : Chars (jsonEscape s) s := by
  induction s with
  | nil => exact .nil
  | cons ch s ih =>
      obtain ⟨hch, hs⟩ := List.forall_mem_cons.mp hs
      rw [jsonEscape, List.flatMap_cons]
      rcases escapeByte_cases ch with ⟨c, hescape, hmem, -⟩ | ⟨hcopy, hquote, hslash, hle⟩
      · rw [hescape]
        exact .escape hmem (ih hs)
      · rw [hcopy]
        exact .plain (hle hch) hquote hslash (ih hs)

/-! ## Arrays and objects -/

theorem encodable_of_pair {key : CString} {val : Value}
    (h : Encodable (.cons (.string key) val)) : Encodable val := by
  rw [Encodable] at h
  rcases h with ⟨-, hitems⟩ | ⟨hpair, -⟩
  · cases val with
    | nil => rw [Encodable]; trivial
    | cons item rest => rw [Encodable]; exact .inl (by rwa [EncodableItems] at hitems)
    | t | number _ | string _ => simp only [EncodableItems] at hitems
  · rw [EncodablePair] at hpair
    · exact hpair.elim
    · exact fun _ _ => nofun

theorem isPair_iff {item : Value} : isPair item = true ↔ ∃ key val, item = .cons (.string key) val := by
  constructor
  · intro h
    match item with
    | .cons (.string key) val => exact ⟨key, val, rfl⟩
  · rintro ⟨key, val, rfl⟩
    rfl

theorem isPair_of_encodablePair {item : Value} (h : EncodablePair item) : isPair item = true := by
  match item with
  | .cons (.string key) val => rfl

/-- The loop tells whether all items are pairs. -/
theorem alistLoop_items {isAlist : Bool} {lst : Value} (h : EncodableItems lst) :
    alistLoop isAlist lst = .ok false ∨
      alistLoop isAlist lst = .ok true ∧ isAlist = true ∧ EncodablePairs lst := by
  induction lst generalizing isAlist with
  | nil =>
      cases isAlist with
      | false => exact .inl rfl
      | true => exact .inr ⟨rfl, rfl, by rw [EncodablePairs]; trivial⟩
  | cons item rest _ ih =>
      rw [EncodableItems] at h
      rw [alistLoop]
      rcases @ih (isAlist && isPair item) h.2 with hfalse | ⟨htrue, hand, hpairs⟩
      · exact .inl hfalse
      · obtain ⟨hall, hpair⟩ := Bool.and_eq_true_iff.mp hand
        obtain ⟨key, val, rfl⟩ := isPair_iff.mp hpair
        refine .inr ⟨htrue, hall, ?_⟩
        rw [EncodablePairs, EncodablePair]
        exact ⟨encodable_of_pair h.1, hpairs⟩
  | t | number _ | string _ => simp only [EncodableItems] at h

theorem alistLoop_pairs {lst : Value} (h : EncodablePairs lst) : alistLoop true lst = .ok true := by
  induction lst with
  | nil => rfl
  | cons item rest _ ih =>
      rw [EncodablePairs] at h
      rw [alistLoop, isPair_of_encodablePair h.1]
      exact ih h.2
  | t | number _ | string _ => simp only [EncodablePairs] at h

/-- **A list is taken for an object** when it is an alist, and for an array otherwise. -/
theorem jsonAlistP_cases {item rest : Value} (h : Encodable (.cons item rest)) :
    jsonAlistP (.cons item rest) = .ok true ∧ EncodablePair item ∧ EncodablePairs rest ∨
      jsonAlistP (.cons item rest) = .ok false ∧ Encodable item ∧ EncodableItems rest := by
  rw [Encodable] at h
  rcases h with ⟨hitem, hrest⟩ | ⟨hpair, hpairs⟩
  · have hitems : EncodableItems (.cons item rest) := by
      rw [EncodableItems]
      exact ⟨hitem, hrest⟩
    cases item with
    | cons car cdr =>
        rcases @alistLoop_items true _ hitems with hfalse | ⟨htrue, -, hpairs⟩
        · exact .inr ⟨hfalse, hitem, hrest⟩
        · rw [EncodablePairs] at hpairs
          exact .inl ⟨htrue, hpairs⟩
    | nil | t | number _ | string _ => exact .inr ⟨rfl, hitem, hrest⟩
  · refine .inl ⟨?_, hpair, hpairs⟩
    have hall : EncodablePairs (.cons item rest) := by
      rw [EncodablePairs]
      exact ⟨hpair, hpairs⟩
    obtain ⟨key, val, rfl⟩ := isPair_iff.mp (isPair_of_encodablePair hpair)
    exact alistLoop_pairs hall

end Lush.Httpd
