import Lush.Basic
import Lush.Csv.Interning

/-!
# Reading the columns of a file

`dt_csv_read_all` goes through the lines of a file once.  It splits every line at the
delimiter, and it puts each field in the array of the type of its column; the strings go
through the hash table of their column, and a string that cannot be interned has the code
`0`.  `csv-read` allocates the arrays, and it takes the strings of a column from the share
that the column has in the buffers.

The arithmetic on `int` is checked, and so are all accesses: a write that would leave the
share of its column is a fault.
-/

namespace Lush.Csv

/-! ## Lines and fields -/

/-- The lines of a file, with their newlines. -/
def lines : List UInt8 → List (List UInt8)
  | [] => []
  | c :: rest =>
      if c = 10 then [c] :: lines rest
      else
        match lines rest with
        | [] => [[c]]
        | line :: more => (c :: line) :: more

/-- A line without the newline and the carriage returns at its end. -/
def stripLine (line : List UInt8) : List UInt8 :=
  line.rdropWhile fun c => c = 10 ∨ c = 13

/-- The end of a quoted field that starts at the position `i`. -/
def scanQuoted : List UInt8 → ℕ → Except Fault ℕ
  | [], i => .ok i
  | c :: rest, i =>
      if c = 34 then do
        let _ ← nonnegInt (i + 1)
        match rest with
        | 34 :: rest => do
            let i ← nonnegInt (i + 2)
            scanQuoted rest i
        | _ => .ok i
      else do
        let i ← nonnegInt (i + 1)
        scanQuoted rest i

/-- The end of a field without quotes. -/
def scanUnquoted (delim : UInt8) : List UInt8 → ℕ → Except Fault ℕ
  | [], i => .ok i
  | c :: rest, i =>
      if c = delim then .ok i
      else do
        let i ← nonnegInt (i + 1)
        scanUnquoted delim rest i

/-- A field without the spaces and tabs around it. -/
def trimBlanks (s : Text) : Text :=
  (s.dropWhile fun c => c = 32 ∨ c = 9).rdropWhile fun c => c = 32 ∨ c = 9

/-- The field at the position `i`, and the position after it. -/
def nextField (delim : UInt8) (s : List UInt8) (i : ℕ) : Except Fault (Text × ℕ) :=
  if s[i]? = some 34 then do
    let start ← nonnegInt (i + 1)
    let stop ← scanQuoted (s.drop start) start
    let text := (s.drop start).take (stop - start)
    if s[stop]? = some 34 then do
      let stop ← nonnegInt (stop + 1)
      .ok (text, stop)
    else .ok (text, stop)
  else do
    let stop ← scanUnquoted delim (s.drop i) i
    .ok (trimBlanks ((s.drop i).take (stop - i)), stop)

/-- The fields from the position `i` on. -/
def fieldsFrom (delim : UInt8) (s : List UInt8) : ℕ → ℕ → Except Fault (List Text)
  | 0, _ => .ok []
  | n + 1, i => do
      let (text, i) ← nextField delim s i
      if s[i]? = some delim then do
        let i ← nonnegInt (i + 1)
        let fields ← fieldsFrom delim s n i
        .ok (text :: fields)
      else .ok [text]

/-- `_dt_split_fields`. -/
def splitFields (delim : UInt8) (maxFields : ℕ) (line : List UInt8) : Except Fault (List Text) :=
  let line := stripLine line
  if line = [] then .ok [] else fieldsFrom delim line maxFields 0

/-! ## Columns -/

inductive ColType
  | int
  | double
  | string
  | stamp
  deriving DecidableEq

/-- The arrays that the fields are put in. -/
inductive Group
  | num
  | str
  | stamp
  deriving DecidableEq

def ColType.group : ColType → Group
  | .int => .num
  | .double => .num
  | .string => .str
  | .stamp => .stamp

/-- The number of columns that go to an array. -/
def columnCount (types : List ColType) (g : Group) : ℕ :=
  types.countP fun ct => ct.group = g

/-- The types of the columns and their indices among the columns of the same array, from
the counts of the columns before them on. -/
def columnsFrom : (Group → ℕ) → List ColType → List (ColType × ℕ)
  | _, [] => []
  | n, ct :: types =>
      (ct, n ct.group) :: columnsFrom (Function.update n ct.group (n ct.group + 1)) types

/-- `col-out-indices`. -/
def columns (types : List ColType) : List (ColType × ℕ) := columnsFrom (fun _ => 0) types

/-! ## The reader -/

/-- What the C library makes of the text of a field, and what stands for no value. -/
structure Parsers (ν τ : Type) where
  number : Text → ν
  nan : ν
  stamp : ℕ → Text → τ
  nat : τ

/-- The arrays, and the contexts of the columns of strings. -/
structure Output (ν τ : Type) where
  numData : List (Option ν)
  strCodes : List ℕ
  stampData : List (Option τ)
  strCtxs : List StrCtx

/-- The sizes of the shares. -/
def strBufSizeEach : ℕ := 1048576

def strMaxUniqueEach : ℕ := 65536

variable {ν τ : Type}

/-- `a[row * n + oi] = v`. -/
def storeCell {α : Type} (a : List α) (row n oi : ℕ) (v : α) : Except Fault (List α) := do
  let k ← nonnegInt (row * n + oi)
  storeAt a k v

/-- A string is interned, and its code is stored. -/
def putString (n row oi : ℕ) (text : Text) (out : Output ν τ) : Except Fault (Output ν τ) :=
  match out.strCtxs[oi]? with
  | none => .error .undefined
  | some ctx => do
      let (ctx, code) ← ctx.intern text
      let codes ← storeCell out.strCodes row n oi (code.getD 0)
      .ok { out with strCodes := codes, strCtxs := out.strCtxs.set oi ctx }

/-- A field is put in its array. -/
def putField (P : Parsers ν τ) (count : Group → ℕ) (row : ℕ) (column : ColType × ℕ) (text : Text)
    (out : Output ν τ) : Except Fault (Output ν τ) :=
  match column.1.group with
  | .num => do
      let data ← storeCell out.numData row (count .num) column.2
        (some (if text = [] then P.nan else P.number text))
      .ok { out with numData := data }
  | .str => putString (count .str) row column.2 text out
  | .stamp => do
      let data ← storeCell out.stampData row (count .stamp) column.2
        (some (if text = [] then P.nat else P.stamp column.2 text))
      .ok { out with stampData := data }

/-- What stands for the fields that a short line does not have. -/
def putMissing (P : Parsers ν τ) (count : Group → ℕ) (row : ℕ) (column : ColType × ℕ)
    (out : Output ν τ) : Except Fault (Output ν τ) :=
  match column.1.group with
  | .num => do
      let data ← storeCell out.numData row (count .num) column.2 (some P.nan)
      .ok { out with numData := data }
  | .str => putString (count .str) row column.2 [] out
  | .stamp => do
      let data ← storeCell out.stampData row (count .stamp) column.2 (some P.nat)
      .ok { out with stampData := data }

/-- The fields of a line are put in the arrays. -/
def readRow (P : Parsers ν τ) (delim : UInt8) (types : List ColType) (row : ℕ)
    (line : List UInt8) (out : Output ν τ) : Except Fault (Output ν τ) := do
  let fields ← splitFields delim types.length line
  let out ← ((columns types).zip fields).foldlM (fun out (column, text) =>
    putField P (columnCount types) row column text out) out
  ((columns types).drop fields.length).foldlM (fun out column =>
    putMissing P (columnCount types) row column out) out

/-- The loop over the lines; it also returns the number of rows. -/
def readRows (P : Parsers ν τ) (delim : UInt8) (types : List ColType) (nrows : ℕ) :
    List (List UInt8) → ℕ → Output ν τ → Except Fault (Output ν τ × ℕ)
  | [], row, out => .ok (out, row)
  | line :: more, row, out =>
      if row < nrows then
        if stripLine line = [] then readRows P delim types nrows more row out
        else do
          let out ← readRow P delim types row (stripLine line) out
          readRows P delim types nrows more (row + 1) out
      else .ok (out, row)

/-- The context of the column `s`, with its share of the buffers. -/
def initCtx (bufs : List UInt8) (offsets : List ℕ) (s : ℕ) : Except Fault StrCtx := do
  let base ← nonnegInt (s * strBufSizeEach)
  let first ← nonnegInt (s * strMaxUniqueEach)
  .ok (StrCtx.init ((bufs.drop base).take strBufSizeEach) strBufSizeEach
    ((offsets.drop first).take strMaxUniqueEach) strMaxUniqueEach)

/-- `dt_csv_read_all`, with the arrays that `csv-read` allocates.  The result is `0` when
the file has the number of rows that is asked for, and `-1` otherwise. -/
def readAll (P : Parsers ν τ) (file : List UInt8) (delim : UInt8) (types : List ColType)
    (nrows : ℕ) : Except Fault (ℤ × Output ν τ) :=
  let nStr := columnCount types .str
  let out : Output ν τ :=
    { numData := List.replicate (max 1 nrows * max 1 (columnCount types .num)) none
      strCodes := List.replicate (max 1 (nrows * nStr)) 0
      stampData := List.replicate (max 1 (nrows * columnCount types .stamp)) none
      strCtxs := [] }
  match lines file with
  | [] => .ok (-1, out)
  | _ :: more => do
      let ctxs ← (List.range nStr).mapM (initCtx
        (List.replicate (max 1 (nStr * strBufSizeEach)) 0)
        (List.replicate (max 1 (nStr * strMaxUniqueEach)) 0))
      let (out, row) ← readRows P delim types nrows more 0 { out with strCtxs := ctxs }
      .ok (if nrows ≤ row then 0 else -1, out)

/-! ## The columns of `csv-read` -/

/-- `_csv-extract-string`. -/
def csvExtractString (buf : List UInt8) (offset : ℕ) : Text :=
  (buf.drop offset).takeWhile (0 < ·)

/-- The codes and the strings of the column `oi`, as they go to `build-from-codes`. -/
def stringColumn (types : List ColType) (nrows oi : ℕ) (out : Output ν τ) :
    Option (List ℕ × List Text) := do
  let codes ← (List.range nrows).mapM fun r => out.strCodes[r * columnCount types .str + oi]?
  let ctx ← out.strCtxs[oi]?
  let strings ← (List.range ctx.nextCode).mapM fun u => do
    let offset ← (out.strCtxs.flatMap (·.uniqueOffsets))[oi * strMaxUniqueEach + u]?
    some (csvExtractString (out.strCtxs.flatMap (·.uniqueBuf)) (oi * strBufSizeEach + offset))
  some (codes, strings)

end Lush.Csv
