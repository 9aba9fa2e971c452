import Lush.Text.Chars

/-!
# Reading a word

`read_word` splits the input: a quoted symbol, a string, a macro-character or
other special character, or a plain word.  What a character is, `char_map`
says.
-/

namespace Lush.Text

/-! ## The character map -/

/-- The bits of `char_map` that `read_word` and `convert` look at. -/
structure CharClass where
  special : Bool := false
  charPrefix : Bool := false
  shortCaret : Bool := false
  mchar : Bool := false
  binary : Bool := false
deriving DecidableEq

/-- `CHAR_INTERWORD`. -/
def CharClass.interword (k : CharClass) : Bool :=
  k.mchar || k.special || k.shortCaret || k.charPrefix || k.binary

/-- The `char_map` that `init_io` sets up, before any macro-character is
defined. -/
def initCharMap (c : UInt8) : CharClass :=
  if c = ascii ')' || c = ascii '(' || c = ascii ';' || c = ascii '\"' || c = ascii '|' then
    { special := true }
  else if c = ascii '^' || c = ascii '#' then { special := true, charPrefix := true }
  else if c < 32 && !isSpace c then { shortCaret := true }
  else if c = 0x9f then { binary := true }
  else {}

/-! ## Words -/

/-- `errw1`. -/
def illegalCharacter (c : UInt8) : Fault :=
  .error ("illegal character : 0x" ++ String.ofList (Nat.toDigits 16 c.toNat))

/-- `errw2`. -/
def tooLongString : Fault := .error "too long string"

/-- The loop of `read_word` inside a quoted symbol, at the position `off` of
`string_buffer`: the rest of the word. -/
def wordSymbol : ℕ → ℕ → Input → Except Fault (List UInt8 × Input)
  | 0, _, _ => .error .depth
  | rounds + 1, off, input => do
      let (c, input) := readChar input
      if c = ascii '|' ∨ c = eof then
        .ok ([], input)
      else if isAscii c ∧ isCntrl c then
        .error (illegalCharacter c)
      else if off < stringBuffer - 1 then
        let (word, input) ← wordSymbol rounds (off + 1) input
        .ok (c :: word, input)
      else
        .error tooLongString

/-- The loop of `read_word` inside a string: a backslash takes the next
character along. -/
def wordString : ℕ → ℕ → Input → Except Fault (List UInt8 × Input)
  | 0, _, _ => .error .depth
  | rounds + 1, off, input => do
      let (c, input) := readChar input
      if c = ascii '\"' ∨ c = eof then
        .ok ([], input)
      else if isAscii c ∧ isCntrl c then
        .error (illegalCharacter c)
      else if off < stringBuffer - 2 then
        if c = ascii '\\' then
          let (c', input) := readChar input
          if isCntrl (toAscii c') ∧ c' ≠ ascii '\n' then
            .error (illegalCharacter c')
          else
            let (word, input) ← wordString rounds (off + 2) input
            .ok (c :: c' :: word, input)
        else
          let (word, input) ← wordString rounds (off + 1) input
          .ok (c :: word, input)
      else
        .error tooLongString

/-- The loop of `read_word` on a plain word.  Letters are folded to lower case,
and underscores to hyphens, but for the first character. -/
def wordPlain (charMap : UInt8 → CharClass) (caseSensitive : Bool) :
    ℕ → ℕ → Input → Except Fault (List UInt8 × Input)
  | 0, _, _ => .error .depth
  | rounds + 1, off, input => do
      let c := nextChar input
      if (charMap c).interword ∨ (isAscii c ∧ isSpace c) ∨ c = eof then
        .ok ([], input)
      else
        let (c, input) := readChar input
        if ¬isAscii c ∨ isCntrl c then
          .error (illegalCharacter c)
        else if off < stringBuffer - 2 then
          let c := if 0 < off ∧ c = ascii '_' then ascii '-' else c
          let c := if caseSensitive then c else toLower c
          let (word, input) ← wordPlain charMap caseSensitive rounds (off + 1) input
          .ok (c :: word, input)
        else
          .error tooLongString

/-- `read_word`.  The rounds of its loops are bounded by the size of
`string_buffer`. -/
def readWord (charMap : UInt8 → CharClass) (caseSensitive : Bool) (input : Input) :
    Except Fault (List UInt8 × Input) := do
  let input := skipToExpr input
  let c := nextChar input
  if c = ascii '|' then
    let (c, input) := readChar input
    let (word, input) ← wordSymbol stringBuffer 1 input
    .ok (c :: word, input)
  else if c = ascii '\"' then
    let (c, input) := readChar input
    let (word, input) ← wordString stringBuffer 1 input
    .ok (c :: word, input)
  else if (charMap c).binary then
    .ok ([c], input)
  else if (charMap c).charPrefix then
    let (c, input) := readChar input
    let (c', input) := readChar input
    .ok ([c, c'], input)
  else if (charMap c).shortCaret then
    let (c, input) := readChar input
    .ok ([ascii '^', c + 0x40], input)
  else if (charMap c).mchar ∨ (charMap c).special then
    let (c, input) := readChar input
    .ok ([c], input)
  else
    wordPlain charMap caseSensitive stringBuffer 0 input

end Lush.Text
