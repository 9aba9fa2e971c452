import Lush.Text.Chars
import Lush.Library.Plans

/-!
# Compiling regular expressions

`regex_compile` translates a pattern into a program of 16-bit words, in a buffer
that its caller provides.  The four functions of the grammar write the program of
a piece to where their free area begins, and then shift it to make place for the
instruction in front of it.

What they write does not depend on what the buffer contains, so they are written
once for any `Target`: the buffer itself (`memory`), and the plan of the
positions they come to (`layout`).
-/

namespace Lush.Regex

open Text

/-- `err`. -/
def err : Fin 5 → String := ![
  "Regex is too complex",
  "Unbalanced () in regex",
  "Unbalanced [] in regex",
  "Bad badslash escape in regex",
  "Regex syntax error"]

/-! ## Instructions -/

/-- `RE_RNG`. -/
def reRng : ℕ := 0x1000

/-- `RE_ANY`. -/
def reAny : ℕ := 0x2000

/-- `RE_JMP`. -/
def reJmp : ℕ := 0x3800

/-- `RE_FAIL`. -/
def reFail : ℕ := 0x4800

/-- `RE_START`. -/
def reStart : ℕ := 0x5000

/-- `RE_END`. -/
def reEnd : ℕ := 0x6000

/-- `RE_CARET`. -/
def reCaret : ℕ := 0x7000

/-- `RE_DOLLAR`. -/
def reDollar : ℕ := 0x8000

/-! ## Sets of characters -/

/-- The 16 words of a set. -/
abbrev Charset : Type := ℕ → UInt16

/-- `charset_zero`. -/
def charsetZero : Charset := fun _ => 0

/-- `charset_toggle`. -/
def charsetToggle (cset : Charset) : Charset := fun i => cset i ^^^ 0xffff

/-- `charset_set`. -/
def charsetSet (cset : Charset) (i : UInt8) : Charset :=
  Function.update cset (i.toNat / 16) (cset (i.toNat / 16) ||| 1 <<< UInt16.ofNat (i.toNat % 16))

/-- A character as a number: `char` is signed. -/
def schar (c : UInt8) : ℤ := c.toInt8.toInt

/-- The loop over the characters from `last` to `c`. -/
def charsetRange (cset : Charset) (last c : ℤ) : Charset :=
  (List.range (c + 1 - last).toNat).foldl (fun cset k => charsetSet cset (UInt8.ofInt (last + k)))
    cset

/-- The loop over the characters between the brackets, with what comes after them. -/
def charsetLoop : List UInt8 → ℤ → Charset → Except Fault (Charset × List UInt8)
  | [], _, _ => .error (.error (err 2))
  | c :: pat, last, set =>
      if c = ascii ']' then .ok (set, pat)
      else
        match pat with
        | [] => charsetLoop [] (schar c) (charsetSet set c)
        | hi :: pat =>
            if c = ascii '-' ∧ last ≠ 0 ∧ hi ≠ ascii ']' then
              charsetLoop pat (max last (schar hi + 1)) (charsetRange set last (schar hi))
            else
              charsetLoop (hi :: pat) (schar c) (charsetSet set c)

/-- A bracket that comes first is a character of the set. -/
def charsetFirst (pat : List UInt8) : Except Fault (Charset × List UInt8) :=
  if pat.head? = some (ascii ']') then charsetLoop pat.tail 0 (charsetSet charsetZero (ascii ']'))
  else charsetLoop pat 0 charsetZero

/-- The set that a pattern denotes after its opening bracket. -/
def charset (pat : List UInt8) : Except Fault (Charset × List UInt8) :=
  if pat.head? = some (ascii '^') then do
    let (set, rest) ← charsetFirst pat.tail
    return (charsetToggle set, rest)
  else
    charsetFirst pat

/-- The last word of the set that is not zero, if not the first one. -/
def lastWord (set : Charset) : ℕ → ℕ
  | 0 => 0
  | last + 1 => if set (last + 1) = 0 then lastWord set last else last + 1

/-! ## The buffer -/

/-- `bounds`. -/
structure Bounds where
  beg : ℕ
  stop : ℕ

/-- The length of a block. -/
def Bounds.length (b : Bounds) : ℤ := (b.stop : ℤ) - b.beg

/-- What the compiler does with its buffer. -/
structure Target (m : Type → Type) where
  /-- What has been found in the pattern, or an error. -/
  lift : {α : Type} → Except Fault α → m α
  /-- Is there place before the end: `p > in.end-4`. -/
  room : ℕ → m Unit
  /-- One word is written. -/
  put : ℕ → UInt16 → m Unit
  /-- A block is copied. -/
  copy : Bounds → ℕ → m Unit
  /-- The 16 words of a set are written. -/
  putSet : ℕ → Charset → m Unit

variable {m : Type → Type} [Monad m]

/-- `serror`. -/
def Target.serror {α : Type} (T : Target m) (n : Fin 5) : m α :=
  T.lift (.error (.error (err n)))

/-- `concatc`. -/
def concatc (T : Target m) (stop1 : ℕ) (c : ℤ) : m ℕ := do
  T.room stop1
  T.put stop1 (UInt16.ofInt c)
  return stop1 + 1

/-- `concatb`. -/
def concatb (T : Target m) (stop1 : ℕ) (b2 : Bounds) : m ℕ := do
  T.room (stop1 + (b2.stop - b2.beg))
  if b2.beg = stop1 then
    return b2.stop
  else do
    T.copy b2 stop1
    return stop1 + (b2.stop - b2.beg)

/-! ## The grammar -/

/-- A compiled piece, and what comes after it. -/
structure Piece where
  bounds : Bounds
  pat : List UInt8
  rnum : ℕ

/-- The piece that consists of one instruction. -/
def instruction (T : Target m) (beg : ℕ) (c : ℤ) (pat : List UInt8) (rnum : ℕ) : m Piece := do
  let stop ← concatc T beg c
  return ⟨⟨beg, stop⟩, pat, rnum⟩

/-- The case `[` of `regex_single`. -/
def regexRange (T : Target m) (beg : ℕ) (pat : List UInt8) (rnum : ℕ) : m Piece :=
  -- `ans->end` is `buf.beg` here
  if beg > beg + 18 then T.serror 0
  else do
    T.putSet (beg + 1) charsetZero
    let (set, pat) ← T.lift (charset pat)
    T.putSet (beg + 1) set
    let stop ← concatc T beg (reRng + lastWord set 15 + 1)
    return ⟨⟨beg, stop + (lastWord set 15 + 1)⟩, pat, rnum⟩

/-- The end of the case `(` of `regex_single`. -/
def regexClose (T : Target m) (beg : ℕ) (last : ℕ) (tmp : Piece) : m Piece := do
  let stop ← concatb T (beg + 1) tmp.bounds
  if tmp.pat.head? = some (ascii ')') then do
    let stop ← concatc T stop (reEnd + last)
    return ⟨⟨beg, stop⟩, tmp.pat.tail, tmp.rnum⟩
  else
    T.serror 1

/-- What `regex_several` does with its piece. -/
def regexRepeat (T : Target m) (beg : ℕ) (b : Piece) : m Piece :=
  if b.pat.head? = some (ascii '?') then do
    let stop ← concatc T beg (reFail + b.bounds.length)
    let stop ← concatb T stop b.bounds
    return ⟨⟨beg, stop⟩, b.pat.tail, b.rnum⟩
  else if b.pat.head? = some (ascii '+') then do
    let stop ← concatb T beg b.bounds
    let stop ← concatc T stop (reFail + 1)
    let stop ← concatc T stop (reJmp - b.bounds.length - 2)
    return ⟨⟨beg, stop⟩, b.pat.tail, b.rnum⟩
  else if b.pat.head? = some (ascii '*') then do
    let stop ← concatc T beg (reFail + b.bounds.length + 1)
    let stop ← concatb T stop b.bounds
    let stop ← concatc T stop (reJmp - b.bounds.length - 2)
    return ⟨⟨beg, stop⟩, b.pat.tail, b.rnum⟩
  else do
    let stop ← concatb T beg b.bounds
    return ⟨⟨beg, stop⟩, b.pat, b.rnum⟩

/-- Does `regex_catenate` go on? -/
def goesOn (pat : List UInt8) : Prop :=
  pat ≠ [] ∧ pat.head? ≠ some (ascii '|') ∧ pat.head? ≠ some (ascii ')')

instance (pat : List UInt8) : Decidable (goesOn pat) :=
  inferInstanceAs (Decidable (_ ∧ _))

/-- The two branches of `regex_alternate` put together. -/
def regexBranch (T : Target m) (beg : ℕ) (b1 b2 : Piece) : m Piece := do
  let stop ← concatc T beg (reFail + (b1.bounds.length + 1))
  let stop ← concatb T stop b1.bounds
  let stop ← concatc T stop (reJmp + b2.bounds.length)
  let stop ← concatb T stop b2.bounds
  return ⟨⟨beg, stop⟩, b2.pat, max b1.rnum b2.rnum⟩

mutual

/-- `regex_single`. -/
def regexSingle (T : Target m) : ℕ → ℕ → List UInt8 → ℕ → m Piece
  | 0, _, _, _ => T.lift (.error .depth)
  | _ + 1, _, [], _ => T.serror 4
  | depth + 1, beg, c :: pat, rnum =>
      if c = ascii '|' then T.serror 4
      else if c = ascii ']' then T.serror 2
      else if c = ascii ')' then T.serror 1
      else if c = ascii '\\' then
        if pat = [] then T.serror 3
        else instruction T beg (schar (pat.headD 0)) pat.tail rnum
      else if c = ascii '.' then instruction T beg reAny pat rnum
      else if c = ascii '(' then do
        let _ ← concatc T beg (reStart + rnum)
        let tmp ← regexAlternate T depth (beg + 1) pat (rnum + 1)
        regexClose T beg rnum tmp
      else if c = ascii '[' then regexRange T beg pat rnum
      else if c = ascii '^' then instruction T beg reCaret pat rnum
      else if c = ascii '$' then instruction T beg reDollar pat rnum
      else instruction T beg c.toNat pat rnum

/-- `regex_several`. -/
def regexSeveral (T : Target m) : ℕ → ℕ → List UInt8 → ℕ → m Piece
  | 0, _, _, _ => T.lift (.error .depth)
  | depth + 1, beg, pat, rnum => do
      let b ← regexSingle T depth (beg + 2) pat rnum
      regexRepeat T beg b

/-- `regex_catenate`: the loop, with `ans` so far. -/
def regexCatenate (T : Target m) : ℕ → Bounds → List UInt8 → ℕ → m Piece
  | 0, _, _, _ => T.lift (.error .depth)
  | depth + 1, ans, pat, rnum => do
      let b ← regexSeveral T depth ans.stop pat rnum
      let stop ← concatb T ans.stop b.bounds
      if goesOn b.pat then regexCatenate T depth ⟨ans.beg, stop⟩ b.pat b.rnum
      else return ⟨⟨ans.beg, stop⟩, b.pat, b.rnum⟩

/-- `regex_alternate`. -/
def regexAlternate (T : Target m) : ℕ → ℕ → List UInt8 → ℕ → m Piece
  | 0, _, _, _ => T.lift (.error .depth)
  | depth + 1, beg, pat, rnum => do
      let b1 ← regexCatenate T depth ⟨beg + 1, beg + 1⟩ pat rnum
      if b1.pat.head? = some (ascii '|') then do
        let b2 ← regexAlternate T depth (b1.bounds.stop + 1) b1.pat.tail rnum
        regexBranch T beg b1 b2
      else do
        let stop ← concatb T beg b1.bounds
        return ⟨⟨beg, stop⟩, b1.pat, b1.rnum⟩

end

/-! ## The buffer itself -/

/-- The words of the memory, counted from `bufstart`. -/
abbrev Memory : Type := ℕ → UInt16

/-- One word is written; the buffer has `len` words. -/
def store (len i : ℕ) (w : UInt16) : StateT Memory (Except Fault) Unit := fun buffer =>
  if i < len then .ok ((), Function.update buffer i w) else .error .undefined

/-- One word is read. -/
def load (len i : ℕ) : StateT Memory (Except Fault) UInt16 := fun buffer =>
  if i < len then .ok (buffer i, buffer) else .error .undefined

/-- The loop of `concatb`, for `n` words. -/
def copyLoop (len : ℕ) : ℕ → ℕ → ℕ → StateT Memory (Except Fault) Unit
  | 0, _, _ => return ()
  | n + 1, s, stop1 => do
      let w ← load len s
      store len stop1 w
      copyLoop len n (s + 1) (stop1 + 1)

/-- The loops over the 16 words of a set, from word `i` on. -/
def setLoop (len set : ℕ) (cset : Charset) : ℕ → ℕ → StateT Memory (Except Fault) Unit
  | 0, _ => return ()
  | n + 1, i => do
      store len (set + i) (cset i)
      setLoop len set cset n (i + 1)

/-- A buffer of `len` words, whose free area ends at `bufEnd`. -/
def memory (len bufEnd : ℕ) : Target (StateT Memory (Except Fault)) where
  lift x := fun buffer => x.map fun a => (a, buffer)
  room p := fun buffer => if p + 4 > bufEnd then .error (.error (err 0)) else .ok ((), buffer)
  put := store len
  copy b stop1 := copyLoop len (b.stop - b.beg) b.beg stop1
  putSet set cset := setLoop len set cset 16 0

/-- Where the program begins: after the length word, and after the `RE_CARET` of
a strict pattern. -/
def bufBeg (strict : Bool) : ℕ := if strict then 2 else 1

/-- Where the free area ends. -/
def bufEnd (len : ℕ) (strict : Bool) : ℕ := if strict then len - 2 else len - 1

/-- The number of calls within one another that a pattern can cause. -/
def depthFor (pat : List UInt8) : ℕ := 4 * pat.length + 4

/-- The end of the program: the `RE_DOLLAR` of a strict pattern, the terminator and
the length word. -/
def regexFinish (len : ℕ) (strict : Bool) (tmp : Piece) : StateT Memory (Except Fault) ℕ :=
  if strict then do
    store len tmp.bounds.stop (UInt16.ofNat reDollar)
    store len (tmp.bounds.stop + 1) 0
    store len 0 (UInt16.ofNat (tmp.bounds.stop + 2))
    return tmp.rnum
  else do
    store len tmp.bounds.stop 0
    store len 0 (UInt16.ofNat (tmp.bounds.stop + 1))
    return tmp.rnum

/-- What follows once the free area is known. -/
def regexBody (pattern : CString) (len : ℕ) (strict : Bool) : StateT Memory (Except Fault) ℕ := do
  let tmp ← regexAlternate (memory len (bufEnd len strict)) (depthFor pattern.bytes)
    (bufBeg strict) pattern.bytes 0
  regexFinish len strict tmp

/-- `regex_compile`, with the number of groups. -/
def regexCompile (pattern : CString) (len : ℕ) (strict : Bool) : StateT Memory (Except Fault) ℕ :=
  if strict then do
    store len 1 (UInt16.ofNat reCaret)
    regexBody pattern len strict
  else
    regexBody pattern len strict

/-! ## The layout -/

/-- What the compiler asks of its buffer. -/
inductive Demand
  /-- There is place before the end of the free area. -/
  | room (p : ℕ)
  /-- A set stands there. -/
  | set (p : ℕ)

/-- The positions that the compiler comes to. -/
def layout : Target (Plan Demand Fault) where
  lift x := ⟨[], x⟩
  room p := ⟨[.room p], .ok ()⟩
  put _ _ := pure ()
  copy _ _ := pure ()
  putSet set _ := ⟨[.set set], .ok ()⟩

/-- The layout of a whole pattern. -/
def layoutOf (pattern : CString) (strict : Bool) : Plan Demand Fault Piece :=
  regexAlternate layout (depthFor pattern.bytes) (bufBeg strict) pattern.bytes 0

end Lush.Regex
