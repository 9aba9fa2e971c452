import Lush.Basic

/-!
# Characters and input

The character classes are those of the C locale.  The input is what is left of
the file, with the column `input_tab` of the context: at the end of the file, a
line that was begun is ended by a newline that is not there.
-/

namespace Lush.Text

/-! ## Character classes -/

/-- The byte of an ASCII character. -/
def ascii (c : Char) : UInt8 := UInt8.ofNat c.toNat

/-- `(char)EOF`, which is also the byte `0xff`. -/
def eof : UInt8 := 255

/-- `isascii`. -/
def isAscii (c : UInt8) : Bool := c < 128

/-- `toascii`. -/
def toAscii (c : UInt8) : UInt8 := c &&& 127

/-- `iscntrl`. -/
def isCntrl (c : UInt8) : Bool := c < 32 || c = 127

/-- `isprint`. -/
def isPrint (c : UInt8) : Bool := 32 ≤ c && c < 127

/-- `isspace`. -/
def isSpace (c : UInt8) : Bool := c = 32 || (9 ≤ c && c ≤ 13)

/-- `isupper`. -/
def isUpper (c : UInt8) : Bool := 65 ≤ c && c ≤ 90

/-- `tolower`. -/
def toLower (c : UInt8) : UInt8 := if isUpper c then c + 32 else c

/-- `isdigit`. -/
def isDigit (c : UInt8) : Bool := 48 ≤ c && c ≤ 57

/-- A property of bytes is checked byte by byte. -/
theorem forall_byte {P : UInt8 → Prop} (h : ∀ n : Fin 256, P (UInt8.ofNat n)) (c : UInt8) :
    P c := by
  have hc := h ⟨c.toNat, c.toNat_lt⟩
  rwa [UInt8.ofNat_toNat] at hc

/-! ## Input -/

/-- The rest of the input, and `input_tab`. -/
structure Input where
  chars : List UInt8
  tab : ℕ
deriving DecidableEq

/-- `input_tab` after a character. -/
def tabAfter (c : UInt8) (tab : ℕ) : ℕ :=
  if isPrint (toAscii c) then tab + 1
  else if c = ascii '\n' then 0
  else if c = ascii '\t' then (tab ||| 7) + 1
  else tab

/-- `next_char`: the character that comes next, which stays in the input. -/
def nextChar (input : Input) : UInt8 :=
  match input.chars with
  | [] => if input.tab = 0 then eof else ascii '\n'
  | c :: _ => if c = ascii '\r' then ascii '\n' else c

/-- `read_char`, on what is left and the column: a carriage return, with the
newline after it, is read as a newline. -/
def readChars : List UInt8 → ℕ → UInt8 × Input
  | [], tab => if tab = 0 then (eof, ⟨[], 0⟩) else (ascii '\n', ⟨[], 0⟩)
  | c :: chars, tab =>
      if c = ascii '\r' then
        if nextChar ⟨chars, tab⟩ = ascii '\n' then readChars chars tab
        else (ascii '\n', ⟨chars, 0⟩)
      else (c, ⟨chars, tabAfter c tab⟩)

/-- `read_char`. -/
def readChar (input : Input) : UInt8 × Input :=
  readChars input.chars input.tab

theorem readChar_cons {c : UInt8} (hc : c ≠ ascii '\r') (chars : List UInt8) (tab : ℕ) :
    readChar ⟨c :: chars, tab⟩ = (c, ⟨chars, tabAfter c tab⟩) := by
  rw [readChar, readChars, if_neg hc]

theorem nextChar_cons {c : UInt8} (hc : c ≠ ascii '\r') (chars : List UInt8) (tab : ℕ) :
    nextChar ⟨c :: chars, tab⟩ = c :=
  if_neg hc

/-- `skip_char("~\n\r\377")`, which skips the rest of a comment. -/
def skipComment : List UInt8 → ℕ → Input
  | [], tab => ⟨[], tab⟩
  | c :: chars, tab =>
      if c = ascii '\n' ∨ c = ascii '\r' ∨ c = eof then ⟨c :: chars, tab⟩
      else skipComment chars (tabAfter c tab)

/-- The loop of `skip_to_expr`; the first argument bounds the number of
rounds. -/
def skipLoop : ℕ → Input → Input
  | 0, input => input
  | rounds + 1, input =>
      let c := nextChar input
      if c = ascii ';' then skipLoop rounds (skipComment input.chars input.tab)
      else if isAscii c ∧ isSpace c then skipLoop rounds (readChar input).2
      else input

/-- `skip_to_expr`: the input from the next expression on.  Every round takes a
character, or ends the last line. -/
def skipToExpr (input : Input) : Input :=
  skipLoop (input.chars.length + 2) input

end Lush.Text
