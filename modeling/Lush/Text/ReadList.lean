import Lush.Text.Print

/-!
# Reading lists

`rl_read` reads an object from its first word, and the words that come after it.
What it makes of cells and atoms is new, so that the result is a tree, with the
names of its symbols.
-/

namespace Lush.Text

/-! ## Errors -/

/-- `err_read0`. -/
def endOfFile : Fault := .error "end of file"

/-- `err_read1`. -/
def badDotted : Fault := .error "bad dotted construction"

/-- `err_read2`, or what `rl_mchar` says when no macro-character is defined. -/
def undefinedMchar (s : List UInt8) : Fault :=
  if s.head? = some (ascii '^') then .error "undefined caret (^) char"
  else if s.head? = some (ascii '#') then .error "undefined dieze (#) char"
  else .unmodelled

/-- `new_symbol`. -/
def newSymbol (name : List UInt8) : Except Fault Tree :=
  if reservedName name then .error (.error "belongs to a reserved package... ")
  else .ok (.symbol name)

/-! ## The reader -/

/-- `rl_read` on a word that is not a parenthesis.  Macro-characters run a function,
and binary data is read by `bread`: these are not modelled. -/
def rlAtom (charMap : UInt8 → CharClass) (s : List UInt8) : Except Fault Tree :=
  let c := s.headD 0
  if (charMap c).binary then .error .unmodelled
  else if (charMap c).mchar ∨ c = ascii '^' ∨ c = ascii '#' then .error (undefinedMchar s)
  else if c = ascii '\"' then do
    let string ← rlString s.tail
    .ok (.string string.bytes)
  else
    match strVal s with
    | some x => .ok (.number x)
    | none =>
        if c = ascii '|' then newSymbol s.tail
        else if s ≠ [] then newSymbol s
        else .ok .nil

/-- What comes after a dotted tail: `where` is null, so that a closing parenthesis
has to follow. -/
def rlClose (charMap : UInt8 → CharClass) (caseSensitive : Bool) (input : Input) :
    Except Fault Input := do
  let (s, input) ← readWord charMap caseSensitive input
  if s = [] then .error endOfFile
  else if s = [ascii ')'] then .ok input
  else .error badDotted

mutual

/-- `rl_read`; the first argument bounds the number of nested calls and rounds. -/
def rlRead (charMap : UInt8 → CharClass) (caseSensitive : Bool) :
    ℕ → List UInt8 → Input → Except Fault (Tree × Input)
  | 0, _, _ => .error .depth
  | rounds + 1, s, input =>
      if s = [ascii '.'] then .error badDotted
      else if s = [ascii '('] then rlCells charMap caseSensitive rounds input
      else do
        let t ← rlAtom charMap s
        .ok (t, input)

/-- The loop of `rl_read` inside a list, at the label `read_again2`: what it stores at
`*where`.  The test for a parenthesis right after the dot looks at `s[1]` twice and
never holds, so that the parenthesis is taken for a symbol. -/
def rlCells (charMap : UInt8 → CharClass) (caseSensitive : Bool) :
    ℕ → Input → Except Fault (Tree × Input)
  | 0, _ => .error .depth
  | rounds + 1, input => do
      let (s, input) ← readWord charMap caseSensitive input
      if s = [] then .error endOfFile
      else if s = [ascii ')'] then .ok (.nil, input)
      else if s = [ascii '.'] then
        let (s, input) ← readWord charMap caseSensitive input
        if s = [] then .error endOfFile
        else
          let (t, input) ← rlRead charMap caseSensitive rounds s input
          let input ← rlClose charMap caseSensitive input
          .ok (t, input)
      else if s.head? = some (ascii '#') then .error (undefinedMchar s)
      else
        let (car, input) ← rlRead charMap caseSensitive rounds s input
        let (cdr, input) ← rlCells charMap caseSensitive rounds input
        .ok (.cons car cdr, input)

end

/-- The first loop of `read_list`: parentheses that close nothing are skipped. -/
def skipClosing : ℕ → Input → Input
  | 0, input => input
  | rounds + 1, input =>
      let input := skipToExpr input
      if nextChar input = ascii ')' then skipClosing rounds (readChar input).2 else input

/-- `read_list`.  Every round and every call takes a character of the input. -/
def readList (charMap : UInt8 → CharClass) (caseSensitive : Bool) (input : Input) :
    Except Fault (Tree × Input) := do
  let input := skipClosing (input.chars.length + 1) input
  let (s, input') ← readWord charMap caseSensitive input
  rlRead charMap caseSensitive (2 * input.chars.length + 2) s input'

end Lush.Text
