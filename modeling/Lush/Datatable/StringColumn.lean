import Lush.Basic
import Lush.Library.CompressedRows

/-!
# String columns

A `StringColumn` has a pool of strings, and for every row the code of a string, its
place in the pool.  The hash table from strings to codes is a finite map here.  The pool
may be in a file until it is needed.  The rows of a string are found with an index when
there is one, and by a scan of the codes otherwise.
-/

namespace Lush.Datatable

open CompressedRows

variable {σ : Type}

/-- An access is outside of its matrix when there is nothing. -/
def checked {α : Type} : Option α → Except Fault α
  | some a => .ok a
  | none => .error .undefined

/-- `(int-matrix n)`. -/
def intMatrix (n : ℕ) : Except Fault (List ℕ) :=
  if n = 0 then .error (.error "Cannot compute storage size") else .ok (List.replicate n 0)

/-- The slots of a `StringColumn`.  The file `pool-fname` is the list that it holds, and
`codes` has `capacity` elements. -/
structure StringColumn (σ : Type) where
  strToCode : σ → Option ℕ
  codeToStr : List σ
  codes : List ℕ
  poolSize : ℕ
  numRows : ℕ
  capacity : ℕ
  poolFname : Option (List σ)
  idxOffsets : Option (List ℕ)
  idxRows : Option (List ℕ)
  idxValid : Bool

namespace StringColumn

/-- `(new StringColumn init-cap)`. -/
def new (initCap : ℕ) : StringColumn σ where
  strToCode _ := none
  codeToStr := []
  codes := List.replicate (max 64 initCap) 0
  poolSize := 0
  numRows := 0
  capacity := max 64 initCap
  poolFname := none
  idxOffsets := none
  idxRows := none
  idxValid := false

/-- `has-index`. -/
def hasIndex (sc : StringColumn σ) : Bool :=
  sc.idxOffsets.isSome && sc.idxRows.isSome && sc.idxValid

/-- `drop-index`. -/
def dropIndex (sc : StringColumn σ) : StringColumn σ :=
  { sc with idxOffsets := none, idxRows := none, idxValid := false }

/-- `_index-lookup`. -/
def indexLookup (sc : StringColumn σ) (code : ℕ) : Except Fault (List ℕ) :=
  match sc.idxOffsets, sc.idxRows with
  | some offsets, some rows => do
      let a ← checked offsets[code]?
      let b ← checked offsets[code + 1]?
      checked (slice rows a b)
  | _, _ => .error .undefined

section Strings

variable [DecidableEq σ]

/-- The loop that registers the strings of a pool, from the code `idx` on. -/
def register : List σ → ℕ → (σ → Option ℕ) → σ → Option ℕ
  | [], _, table => table
  | s :: strings, idx, table => register strings (idx + 1) (Function.update table s (some idx))

/-- `_load-pool`, for a pool in a text file. -/
def loadPool (sc : StringColumn σ) : StringColumn σ :=
  match sc.codeToStr, sc.poolFname with
  | [], some pool =>
      { sc with
        codeToStr := pool
        strToCode := register pool 0 fun _ => none
        poolSize := pool.length }
  | _, _ => sc

/-- The code of a string, which is put in the pool when it is new. -/
def internString (sc : StringColumn σ) (s : σ) : StringColumn σ × ℕ :=
  match sc.strToCode s with
  | some code => (sc, code)
  | none =>
      ({ sc with
          strToCode := Function.update sc.strToCode s (some sc.poolSize)
          codeToStr := sc.codeToStr ++ [s]
          poolSize := sc.poolSize + 1 }, sc.poolSize)

/-- Room for a row. -/
def grow (sc : StringColumn σ) : Except Fault (StringColumn σ) :=
  if sc.capacity ≤ sc.numRows then do
    let newCodes ← intMatrix (2 * sc.capacity)
    let newCodes ← checked (copy sc.codes sc.numRows newCodes)
    .ok { sc with codes := newCodes, capacity := 2 * sc.capacity }
  else .ok sc

/-- `append`. -/
def append (sc : StringColumn σ) (s : σ) : Except Fault (StringColumn σ) := do
  let (sc, code) := internString sc.loadPool s
  let sc ← grow sc
  let codes ← checked (store sc.codes sc.numRows code)
  .ok { sc with codes := codes, numRows := sc.numRows + 1, idxValid := false }

/-- `get`. -/
def get (sc : StringColumn σ) (i : ℤ) : Except Fault (StringColumn σ × Option σ) :=
  if 0 ≤ i ∧ i < sc.numRows then do
    let sc := sc.loadPool
    let code ← checked sc.codes[i.toNat]?
    .ok (sc, sc.codeToStr[code]?)
  else .ok (sc, none)

/-- The scan of `where-eq`. -/
def scan (sc : StringColumn σ) (target : ℕ) : Except Fault (List ℕ) :=
  (List.range sc.numRows).foldlM (fun result i => do
    let code ← checked sc.codes[i]?
    .ok (if code = target then result ++ [i] else result)) []

/-- `where-eq`. -/
def whereEq (sc : StringColumn σ) (s : σ) : Except Fault (StringColumn σ × List ℕ) := do
  let sc := sc.loadPool
  match sc.strToCode s with
  | none => .ok (sc, [])
  | some target => do
      let rows ← (if sc.hasIndex then sc.indexLookup target else sc.scan target)
      .ok (sc, rows)

/-- `build-from-codes`. -/
def buildFromCodes (sc : StringColumn σ) (codes : List ℕ) (strings : List σ) : StringColumn σ :=
  { sc with
    strToCode := register strings 0 fun _ => none
    codeToStr := strings
    poolSize := strings.length
    codes := codes
    numRows := codes.length
    capacity := codes.length }

/-- `build-from-codes-lazy`. -/
def buildFromCodesLazy (sc : StringColumn σ) (codes : List ℕ) (strings : List σ) :
    StringColumn σ :=
  { sc with
    codes := codes
    numRows := codes.length
    capacity := codes.length
    poolFname := some strings
    codeToStr := []
    strToCode := fun _ => none
    poolSize := 0 }

/-- `build-index`. -/
def buildIndex (sc : StringColumn σ) : Except Fault (StringColumn σ) := do
  let sc := sc.loadPool
  if 0 < sc.numRows then do
    let counts ← intMatrix (sc.poolSize + 1)
    let counts ← checked (tally sc.codes sc.numRows counts)
    let offsets ← intMatrix (sc.poolSize + 1)
    let rows ← intMatrix sc.numRows
    let pos ← intMatrix sc.poolSize
    let offsets ← checked (store offsets 0 0)
    let offsets ← checked (starts counts sc.poolSize offsets)
    let pos ← checked (copy offsets sc.poolSize pos)
    let (_, rows) ← checked (scatter sc.codes sc.numRows pos rows)
    .ok { sc with idxOffsets := some offsets, idxRows := some rows, idxValid := true }
  else .ok sc

end Strings

end StringColumn

end Lush.Datatable
