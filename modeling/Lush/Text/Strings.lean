import Lush.Text.Word

/-!
# Printing and reading strings

`string_name` prints a string between quotes, with escapes, in a locale that
knows no characters but the ASCII ones.  `rl_string` expands the escapes of a
word that `read_word` has delimited.
-/

namespace Lush.Text

/-! ## Tables -/

/-- `special_string`. -/
def specialString : List UInt8 := [34, 92, 10, 13, 8, 9, 12, 255]

/-- `aspect_string`. -/
def aspectString : List UInt8 :=
  [ascii '\"', ascii '\\', ascii 'n', ascii 'r', ascii 'b', ascii 't', ascii 'f', ascii 'e']

/-- `digit_string`. -/
def digitString : List UInt8 := (List.range 10).map (UInt8.ofNat <| 48 + ·) ++
  (List.range 6).map (UInt8.ofNat <| 97 + ·)

/-- `strchr`, as an index; the character is not zero. -/
def strchr (s : List UInt8) (c : UInt8) : Option ℕ := s.findIdx? (· == c)

/-! ## The printer -/

/-- What `string_name` prints for one character. -/
def escape (c : UInt8) : List UInt8 :=
  match strchr specialString c with
  | some i => [ascii '\\', aspectString.getD i 0]
  | none =>
      if isAscii c && isPrint c then [c]
      else if c ≤ 32 then [ascii '\\', ascii '^', c ||| 0x40]
      else [ascii '\\', ascii 'x', digitString.getD (c.toNat / 16) 0,
        digitString.getD (c.toNat % 16) 0]

/-- The loop of `string_name`, from the position `off` of `string_buffer`: it
breaks off near the end of the buffer. -/
def nameLoop : ℕ → List UInt8 → List UInt8
  | _, [] => []
  | off, c :: s =>
      if stringBuffer - 10 ≤ off then []
      else escape c ++ nameLoop (off + (escape c).length) s

/-- `string_name`. -/
def stringName (s : CString) : List UInt8 :=
  ascii '\"' :: nameLoop 1 s.bytes ++ [ascii '\"']

/-- The string is short enough for `string_buffer`: the last character is
reached before the loop breaks off. -/
def Fits (s : List UInt8) : Prop :=
  (s.dropLast.flatMap escape).length + 1 < stringBuffer - 10

instance (s : List UInt8) : Decidable (Fits s) :=
  inferInstanceAs (Decidable (_ < _))

/-! ## The reader -/

/-- A digit of `digit_string`, upper case or lower case. -/
def hexDigit (c : UInt8) : Option ℕ := strchr digitString (toLower c)

/-- At most `n` digits, with their number and value: `\x`. -/
def hexDigits : ℕ → List UInt8 → ℕ × ℕ × List UInt8
  | n + 1, c :: s =>
      match hexDigit c with
      | some d =>
          let (count, value, rest) := hexDigits n s
          (count + 1, d * 16 ^ count + value, rest)
      | none => (0, 0, c :: s)
  | _, s => (0, 0, s)

/-- At most `n` octal digits, with their number and value. -/
def octDigits : ℕ → List UInt8 → ℕ × ℕ × List UInt8
  | n + 1, c :: s =>
      if 48 ≤ c ∧ c ≤ 55 then
        let (count, value, rest) := octDigits n s
        (count + 1, (c.toNat - 48) * 8 ^ count + value, rest)
      else
        (0, 0, c :: s)
  | _, s => (0, 0, s)

/-- `err_string`. -/
def badBackslash : Fault := .error "bad backslash sequence in a string"

/-- One escape of `rl_string`, after its backslash: the characters it stands for,
and what comes after it.  The escapes `\u`, `\U` and `\+`, which depend on the
locale, are left out. -/
def rlEscape : List UInt8 → Except Fault (List UInt8 × List UInt8)
  | [] => .error .undefined
  | e :: t =>
      match strchr aspectString e with
      | some i => .ok ([specialString.getD i 0], t)
      | none =>
          if e = ascii 'x' ∨ e = ascii 'X' then
            let (count, h, t) := hexDigits 2 t
            if count = 0 then .error badBackslash else .ok ([UInt8.ofNat h], t)
          else if e = ascii 'u' ∨ e = ascii 'U' then
            .error .unmodelled
          else if e = ascii '^' ∧ t ≠ [] then
            .ok ([t.headD 0 &&& 0x1f], t.tail)
          else if e = ascii '+' ∧ t ≠ [] then
            .error .unmodelled
          else if e = ascii '\n' then
            .ok ([], t)
          else
            let (count, h, t) := octDigits 3 (e :: t)
            if count = 0 then .error badBackslash else .ok ([UInt8.ofNat h], t)

/-- The loop of `rl_string`; the first argument bounds the number of rounds. -/
def rlLoop : ℕ → List UInt8 → Except Fault (List UInt8)
  | _, [] => .ok []
  | 0, _ => .error .depth
  | rounds + 1, c :: s =>
      if c = ascii '\\' ∧ s ≠ [] then do
        let (out, t) ← rlEscape s
        let rest ← rlLoop rounds t
        .ok (out ++ rest)
      else do
        let rest ← rlLoop rounds s
        .ok (c :: rest)

/-- `rl_string`. -/
def rlString (s : List UInt8) : Except Fault CString :=
  cstring <$> rlLoop s.length s

/-- A string at the start of the input, as `rl_read` reads it. -/
def readString (charMap : UInt8 → CharClass) (caseSensitive : Bool) (input : Input) :
    Except Fault (CString × Input) := do
  let (word, input) ← readWord charMap caseSensitive input
  let s ← rlString word.tail
  .ok (s, input)

end Lush.Text
