import Lush.Ints
import Lush.Text.Numbers

/-!
# Run-length encoded image files

A file has a line with the number of columns and the number of lines, and then the lengths of
runs, white and black in turns, each in one byte or two.  The writer gets the black runs and
writes lengths up to the last line.  The readers start each line in white, as soon as the line
before is full.
-/

namespace Lush.Image

open Text

/-- What `RUN-Y`, `RUN-X1` and `RUN-X2` are the columns of. -/
structure Run where
  y : ℤ
  x1 : ℤ
  x2 : ℤ
deriving DecidableEq

/-! ## Bytes -/

/-- The byte that `putc` writes, or that is stored in an element of a `ubyte` matrix. -/
def byte (n : ℤ) : UInt8 := UInt8.ofNat (n.emod 256).toNat

/-- `write-rle`. -/
def writeRle (len : ℤ) : List UInt8 :=
  if 0 ≤ len then
    let n := intCast len
    if n < 0xc0 then [byte n]
    else if n < 0x4000 then [UInt8.ofNat (n.toNat >>> 8 ||| 0xc0), byte n]
    else []
  else []

/-- `getc`, for the second byte of a length. -/
def getc : List UInt8 → ℤ × List UInt8
  | [] => (-1, [])
  | b :: rest => (b.toNat, rest)

/-- The lengths that the loops of the readers get, one after another, up to the end of the file. -/
def lengths : List UInt8 → List ℤ
  | [] => []
  | [b] => [if 0xc0 ≤ b.toNat then -1 + (b.toNat - 0xc0) * 256 else b.toNat]
  | b :: b' :: rest =>
      if 0xc0 ≤ b.toNat then (b'.toNat + (b.toNat - 0xc0 : ℤ) * 256) :: lengths rest
      else (b.toNat : ℤ) :: lengths (b' :: rest)

/-! ## The writer -/

/-- `fprintf` with `"R4 %d %d\n"`. -/
def header (nlin ncol : ℤ) : List UInt8 :=
  ascii 'R' :: ascii '4' :: ascii ' ' :: (integerText (intCast ncol) ++
    ascii ' ' :: (integerText (intCast nlin) ++ [ascii '\n']))

/-- `write-rle` for as many full lines as an `icfor` loop up to `n` makes. -/
def fullLines (ncol n : ℤ) : List ℤ := List.replicate (n - 1).toNat ncol

/-- What `write-rle` gets for a run. -/
def writeRun (nlin ncol prevy prevx2 : ℤ) (run : Run) : List ℤ :=
  if run.y < 0 ∨ nlin ≤ run.y then []
  else
    let runx1 := if run.x1 < 0 then 0 else run.x1
    let runx2 := if ncol < run.x2 + 1 then ncol else run.x2 + 1
    (if run.y = prevy then [runx1 - prevx2]
      else (ncol - prevx2) :: (fullLines ncol (run.y - prevy) ++ [runx1])) ++ [runx2 - runx1]

/-- What `prevx2` is after a run. -/
def nextx2 (nlin ncol : ℤ) (run : Run) : ℤ :=
  if run.y < 0 ∨ nlin ≤ run.y then run.x2 + 1
  else if ncol < run.x2 + 1 then ncol else run.x2 + 1

/-- What `write-rle` gets for runs, and after them. -/
def writes (nlin ncol : ℤ) : ℤ → ℤ → List Run → List ℤ
  | prevy, prevx2, [] => (ncol - prevx2) :: fullLines ncol (nlin - prevy)
  | prevy, prevx2, run :: runs =>
      writeRun nlin ncol prevy prevx2 run ++ writes nlin ncol run.y (nextx2 nlin ncol run) runs

/-- `rle-write-runs`: what is in the file. -/
def rleWriteRuns (runs : List Run) (nlin ncol : ℤ) : List UInt8 :=
  header nlin ncol ++ (writes nlin ncol 0 0 runs).flatMap writeRle

/-! ## The readers -/

/-- `fscan-str`. -/
def fscanStr (f : List UInt8) : List UInt8 × List UInt8 :=
  let f := f.dropWhile isSpace
  (f.takeWhile fun b => !isSpace b, f.dropWhile fun b => !isSpace b)

/-- `fscan-int`, which is 0 when there are no digits. -/
def fscanInt (f : List UInt8) : ℤ × List UInt8 :=
  let f := f.dropWhile isSpace
  let sign := f.head? = some (ascii '-')
  let f := if sign ∨ f.head? = some (ascii '+') then f.tail else f
  let value : ℤ := digitsValue (f.takeWhile isDigit)
  (if sign then -value else value, f.dropWhile isDigit)

/-- Where a reader is: the line, the column, and the colour. -/
structure Position where
  n : ℤ
  c : ℤ
  white : Bool
deriving DecidableEq

/-- The end of a round. -/
def Position.advance (ncol : ℤ) (p : Position) (x : ℤ) : Position :=
  if ncol ≤ p.c + x then ⟨p.n + 1, 0, true⟩ else ⟨p.n, p.c + x, !p.white⟩

/-- What `rle-read-runs` has read: the runs, and the number of rows of the matrix that they are
stored in. -/
structure Rows where
  runs : List Run
  dim : ℤ

/-- A black run goes to the next row; the matrix is made larger before, if there is no such row. -/
def Rows.store (rows : Rows) (p : Position) (x : ℤ) : Except Fault Rows :=
  let id : ℤ := rows.runs.length
  let dim := if rows.dim ≤ id then 2 * rows.dim else rows.dim
  if dim ≤ id then .error (.error "indices are out of bound")
  else .ok ⟨rows.runs ++ [⟨p.n, p.c, p.c + x - 1⟩], dim⟩

/-- A length of the file: only the black runs are stored. -/
def Rows.round (rows : Rows) (p : Position) (x : ℤ) : Except Fault Rows :=
  if 0 < x ∧ p.white = false then rows.store p x else .ok rows

/-- The loop of `rle-read-runs`. -/
def readRuns (ncol : ℤ) : List ℤ → Position → Rows → Except Fault (Position × Rows)
  | [], p, rows => .ok (p, rows)
  | x :: xs, p, rows => do
      let rows ← rows.round p x
      readRuns ncol xs (p.advance ncol x) rows

/-- What both readers find at the start of the file: the dimensions, and the bytes. -/
def readHeader (f : List UInt8) : Except Fault (ℤ × ℤ × List UInt8) :=
  let head := fscanStr f
  if head.1 ≠ [ascii 'R', ascii '4'] then .error (.error "not a valid binary RLE file")
  else
    let ncol := fscanInt head.2
    let nlin := fscanInt ncol.2
    .ok (ncol.1, nlin.1, (getc nlin.2).2)

/-- `rle-read-runs`: the runs, and what `img-dim` is after it. -/
def rleReadRuns (f : List UInt8) : Except Fault (List Run × ℤ × ℤ) := do
  let (ncol, nlin, codes) ← readHeader f
  let (p, rows) ← readRuns ncol (lengths codes) ⟨0, 0, true⟩ ⟨[], 2 * nlin⟩
  if p.n ≠ nlin then .error (.error "Malformed rle file")
  else .ok (rows.runs, nlin, ncol)

/-- A `ubyte` matrix. -/
structure Matrix where
  nlin : ℤ
  ncol : ℤ
  pixel : ℤ → ℤ → UInt8

/-- `(idx-bloop ((p (narrow (select rez 0 n) 0 x c))) (p color))`. -/
def Matrix.paint (rez : Matrix) (n c x color : ℤ) : Except Fault Matrix :=
  if n < 0 then .error (.error "illegal parameter")
  else if rez.nlin ≤ n then .error (.error "specified subscript is too large")
  else if x < 1 ∨ c < 0 then .error (.error "illegal 'size' or 'offset'")
  else if rez.ncol < c + x then .error (.error "specified interval is too large")
  else .ok { rez with
    pixel := fun i j => if i = n ∧ c ≤ j ∧ j < c + x then byte color else rez.pixel i j }

/-- A length of the file: its pixels get the colour. -/
def Matrix.round (rez : Matrix) (n c x color : ℤ) : Except Fault Matrix :=
  if 0 < x then rez.paint n c x color else .ok rez

/-- The loop of `rle-read-ubim`. -/
def readUbim (white black : ℤ) : List ℤ → (n c color : ℤ) → Matrix → Except Fault (ℤ × Matrix)
  | [], n, _, _, rez => .ok (n, rez)
  | x :: xs, n, c, color, rez => do
      let rez ← rez.round n c x color
      let c := c + x
      let color := if color = white then black else white
      if rez.ncol ≤ c then readUbim white black xs (n + 1) 0 white rez
      else readUbim white black xs n c color rez

/-- `rle-read-ubim`; the elements of a new matrix are what is in the memory. -/
def rleReadUbim (memory : ℤ → ℤ → UInt8) (f : List UInt8) (white black : ℤ) :
    Except Fault Matrix := do
  let (ncol, nlin, codes) ← readHeader f
  let (n, rez) ← readUbim white black (lengths codes) 0 0 white ⟨nlin, ncol, memory⟩
  if n ≠ nlin then .error (.error "Malformed rle file") else .ok rez

end Lush.Image
