import Lush.Arrays.Shape
import Lush.Arrays.Loop
import Lush.Library.Words

/-!
# Matrix files

`save_matrix` writes a magic number for the type of the storage, the number of dimensions,
the dimensions, and the elements.  An index of one or two dimensions gets further
dimensions of size `1`, up to three.  `load_matrix` tells from the magic number whether
the file was written with the other byte order, and reads the format of Pascal Vincent as
well.  The words of this machine have their lowest byte first.
-/

namespace Lush.Arrays

open Strides Words

/-- The types of the storages that hold numbers: `ST_P` and so on. -/
inductive StorageType
  | p
  | f
  | d
  | i32
  | i16
  | i8
  | u8
  | i64
deriving DecidableEq

/-- `storage_type_size`. -/
def StorageType.size : StorageType → ℕ
  | .p => 1
  | .f => 4
  | .d => 8
  | .i32 => 4
  | .i16 => 2
  | .i8 => 1
  | .u8 => 1
  | .i64 => 8

/-- A native `int`. -/
abbrev Word := BitVec (8 * 4)

/-- `PACKED_MATRIX` and so on. -/
def StorageType.magic : StorageType → Word
  | .f => 0x1e3d4c51
  | .p => 0x1e3d4c52
  | .d => 0x1e3d4c53
  | .i32 => 0x1e3d4c54
  | .u8 => 0x1e3d4c55
  | .i16 => 0x1e3d4c56
  | .i8 => 0x1e3d4c57
  | .i64 => 0x1e3d4c58

/-- The types in the order of the cases of `load_matrix_header`. -/
def StorageType.all : List StorageType := [.f, .p, .d, .i16, .i8, .i32, .u8, .i64]

/-- `ASCII_MATRIX`. -/
def asciiMatrix : Word := 0x2e4d4154

/-- `SWAP`. -/
def swap (x : Word) : Word :=
  ((x &&& 0xff) <<< 24) ||| ((x &&& 0xff00) <<< 8) |||
    ((x &&& 0xff0000) >>> 8) ||| ((x &&& 0xff000000) >>> 24)

/-- What becomes of an `intg` that is passed as an `int`. -/
def asInt (x : ℤ) : ℤ := (BitVec.ofInt 32 x).toInt

/-- An index, and its storage with the bytes of every element. -/
structure NumericIndex where
  type : StorageType
  data : List (List UInt8)
  ind : Index
deriving DecidableEq

/-- Why a matrix is not saved or loaded: an error with its text, an error of
`index_dimension`, a use of memory or of a variable without a value, the format with
text. -/
inductive Fault
  | error (text : String)
  | dimension
  | undefined
  | ascii
deriving DecidableEq

/-- The element at a displacement. -/
def NumericIndex.at (m : NumericIndex) (off : ℤ) : Option (List UInt8) :=
  let pos := m.ind.offset + off
  if 0 ≤ pos then m.data[pos.toNat]? else none

/-- The size that `mode_check` computes. -/
def modeCheck (ind : Index) : ℤ :=
  if ind.unsized then 0 else (ind.axes.map Axis.dim).prod

/-- The loop of `contiguity_check`, on the dimensions from the last. -/
def contiguousFrom (size : ℤ) : List Axis → Bool
  | [] => true
  | a :: axes => if size ≠ a.mod then false else contiguousFrom (size * a.dim) axes

/-- `contiguity_check`. -/
def contiguityCheck (ind : Index) : Bool := contiguousFrom 1 ind.axes.reverse

/-- `swap_buffer`, on elements. -/
def swapBuffer : ℕ → List (List UInt8) → List (List UInt8)
  | n + 1, x :: b => x.reverse :: swapBuffer n b
  | _, b => b

/-! ## Saving -/

/-- `save_matrix_len`. -/
def saveMatrixLen (m : NumericIndex) : ℤ :=
  let ndim := m.ind.axes.length
  if m.ind.unsized then 2 * 4
  else if ndim = 1 ∨ ndim = 2 then m.type.size * modeCheck m.ind + 5 * 4
  else m.type.size * modeCheck m.ind + (ndim + 2) * 4

/-- `write4`. -/
def write4 (x : ℤ) : List UInt8 := encode (BitVec.ofInt (8 * 4) x)

/-- The dimensions are written. -/
def saveDims : List Axis → Except Fault (List (List UInt8))
  | [] => .ok []
  | a :: axes =>
      if 2147483647 < a.dim then
        .error (.error "dimension too large for 32-bit matrix format")
      else (saveDims axes).map (write4 a.dim :: ·)

/-- The elements at the offsets are written. -/
def saveElements (m : NumericIndex) : List ℤ → Except Fault (List (List UInt8))
  | [] => .ok []
  | off :: offs => do
      let x ← (m.at off).elim (.error .undefined) .ok
      let xs ← saveElements m offs
      .ok (x :: xs)

/-- The header: the magic number, the number of dimensions, the dimensions, and the
dimensions for SN1. -/
def saveHeader (m : NumericIndex) : Except Fault (List (List UInt8)) := do
  let ndim : ℤ := if m.ind.unsized then -1 else m.ind.axes.length
  let dims ← saveDims m.ind.axes
  let ones := if ndim = 1 ∨ ndim = 2 then List.replicate (3 - ndim).toNat (write4 1) else []
  .ok (encode m.type.magic :: write4 ndim :: (dims ++ ones))

/-- `format_save_matrix`: what every call of `write4` and `fwrite` writes.  The header is
optional. -/
def formatSaveMatrix (m : NumericIndex) (h : Bool) : Except Fault (List (List UInt8)) := do
  let header ← if h then saveHeader m else .ok []
  if m.ind.unsized then .ok header
  else do
    let offs ← (aloop m.ind.axes (count m.ind.axes)).elim (.error .undefined) .ok
    let elements ← saveElements m offs
    .ok (header ++ elements)

/-- `save_matrix`. -/
def saveMatrix (m : NumericIndex) : Except Fault (List (List UInt8)) := formatSaveMatrix m true

/-! ## Loading -/

/-- `read4`.  At the end of the file the number has no value. -/
def read4 (f : List UInt8) : Except Fault (Word × List UInt8) :=
  if 4 ≤ f.length then .ok (decode 4 (f.take 4), f.drop 4) else .error .undefined

/-- A number in the byte order of the file. -/
def readSwapped (swapflag : Bool) (f : List UInt8) : Except Fault (Word × List UInt8) := do
  let (x, f) ← read4 f
  .ok (if swapflag then swap x else x, f)

def corrupted : Fault := .error "corrupted matrix file"

/-- So many dimensions. -/
def loadDims (swapflag : Bool) : ℕ → List UInt8 → Except Fault (List ℤ × List UInt8)
  | 0, f => .ok ([], f)
  | n + 1, f => do
      let (x, f) ← readSwapped swapflag f
      if x.toInt < 1 then .error corrupted
      else do
        let (dims, f) ← loadDims swapflag n f
        .ok (x.toInt :: dims, f)

/-- So many dimensions for SN1. -/
def loadOnes (swapflag : Bool) : ℕ → List UInt8 → Except Fault (List UInt8)
  | 0, f => .ok f
  | n + 1, f => do
      let (x, f) ← readSwapped swapflag f
      if x.toInt ≠ 1 then .error corrupted else loadOnes swapflag n f

/-- The header of a file.  Without dimensions the index is unsized. -/
structure Header where
  type : StorageType
  dims : Option (List ℤ)
  swapflag : Bool
deriving DecidableEq

/-- The header after a magic number of `save_matrix`. -/
def loadMatrixDims (type : StorageType) (swapflag : Bool) (f : List UInt8) :
    Except Fault (Header × List UInt8) := do
  let (x, f) ← readSwapped swapflag f
  let ndim := x.toInt
  if ndim = -1 then .ok (⟨type, none, swapflag⟩, f)
  else if ndim < 0 ∨ maxDims < ndim then .error corrupted
  else do
    let (dims, f) ← loadDims swapflag ndim.toNat f
    let f ← if ndim = 1 ∨ ndim = 2 then loadOnes swapflag (3 - ndim).toNat f else .ok f
    .ok (⟨type, some dims, swapflag⟩, f)

/-- The dimensions in the format of Pascal Vincent. -/
def loadIdxDims : ℕ → List UInt8 → Except Fault (List ℤ × List UInt8)
  | 0, f => .ok ([], f)
  | n + 1, f => do
      let (x, f) ← readSwapped true f
      let (dims, f) ← loadIdxDims n f
      .ok (x.toInt :: dims, f)

/-- The types in the format of Pascal Vincent. -/
def idxType (magic : Word) : Option StorageType :=
  match ((magic &&& 0xF00) >>> 8).toNat with
  | 0x8 => some .u8
  | 0x9 => some .i8
  | 0xB => some .i16
  | 0xC => some .i32
  | 0xD => some .f
  | 0xE => some .d
  | _ => none

/-- The header in the format of Pascal Vincent. -/
def loadIdxHeader (magic : Word) (f : List UInt8) : Except Fault (Header × List UInt8) :=
  let ndim := (magic &&& 0x3).toNat
  match idxType magic with
  | some type =>
      if magic &&& ~~~0xF03 = 0 ∧ 1 ≤ ndim then do
        let (dims, f) ← loadIdxDims ndim f
        .ok (⟨type, some dims, true⟩, f)
      else .error (.error "not a recognized matrix file")
  | none => .error (.error "not a recognized matrix file")

/-- `load_matrix_header`. -/
def loadMatrixHeader (f : List UInt8) : Except Fault (Header × List UInt8) := do
  let (magic, f) ← read4 f
  match StorageType.all.find? fun t => magic = swap t.magic with
  | some type => loadMatrixDims type true f
  | none =>
      match StorageType.all.find? fun t => magic = t.magic with
      | some type => loadMatrixDims type false f
      | none =>
          if magic = swap asciiMatrix ∨ magic = asciiMatrix then .error .ascii
          else loadIdxHeader (swap magic) f

/-- `generic_matrix`: an index on a storage of its own.  `storage_malloc` clears it. -/
def genericMatrix (type : StorageType) : Option (List ℤ) → Except Fault NumericIndex
  | none => .ok ⟨type, [], newIndex 0⟩
  | some dims =>
      match indexDimension none (newIndex 0) dims with
      | none => .error .dimension
      | some (size, ind) =>
          .ok ⟨type, List.replicate size.toNat (List.replicate type.size 0), ind⟩

/-- So many blocks of some size are read, or as many as there are. -/
def freadBlocks (size : ℕ) : ℕ → List UInt8 → List (List UInt8) × List UInt8
  | 0, f => ([], f)
  | n + 1, f =>
      if size ≤ f.length then
        let rest := freadBlocks size n (f.drop size)
        (f.take size :: rest.1, rest.2)
      else ([], [])

/-- Elements are overwritten, from a position on. -/
def NumericIndex.overwrite (m : NumericIndex) (pos : ℤ) (blocks : List (List UInt8)) :
    Except Fault NumericIndex :=
  if 0 ≤ pos ∧ pos + blocks.length ≤ m.data.length then
    .ok { m with
      data := m.data.take pos.toNat ++ blocks ++ m.data.drop (pos.toNat + blocks.length) }
  else .error .undefined

def tooShort : Fault := .error "file is too short"

/-- The loop on each element. -/
def importElements (m : NumericIndex) :
    List ℤ → List UInt8 → Except Fault (NumericIndex × List UInt8)
  | [], f => .ok (m, f)
  | off :: offs, f =>
      if f.length < m.type.size then .error tooShort
      else do
        let m ← m.overwrite (m.ind.offset + off) [f.take m.type.size]
        importElements m offs (f.drop m.type.size)

/-- `import_raw_matrix`, from where the file stands. -/
def importRawMatrix (m : NumericIndex) (f : List UInt8) :
    Except Fault (NumericIndex × List UInt8) :=
  let size := modeCheck m.ind
  if m.ind.unsized then .ok (m, f)
  else if contiguityCheck m.ind then do
    let blocks := freadBlocks m.type.size size.toNat f
    let m ← m.overwrite m.ind.offset blocks.1
    if blocks.1.length < size then .error tooShort else .ok (m, blocks.2)
  else do
    let offs ← (aloop m.ind.axes (count m.ind.axes)).elim (.error .undefined) .ok
    importElements m offs f

/-- The elements are swapped when needed. -/
def swapElements (m : NumericIndex) : NumericIndex :=
  let size := modeCheck m.ind
  let pntr := m.ind.offset.toNat
  if 1 < m.type.size then
    { m with data := m.data.take pntr ++ swapBuffer (asInt size).toNat (m.data.drop pntr) }
  else m

/-- `load_matrix`: the index, and the file after what has been read. -/
def loadMatrix (f : List UInt8) : Except Fault (NumericIndex × List UInt8) := do
  let (header, f) ← loadMatrixHeader f
  let m ← genericMatrix header.type header.dims
  if header.dims = none then .ok (m, f)
  else do
    let (m, f) ← importRawMatrix m f
    .ok (if header.swapflag then swapElements m else m, f)

end Lush.Arrays
