import Lush.Binary.Write
import Lush.LispArrays.Node

/-!
# Writing Lisp arrays

The tokens of conses, numbers and Lisp arrays, and the sweeps of `bwrite` over graphs of
these.  The first and the third sweep only look at flags and relocations; the second one
writes the dimensions of an array before it goes through its elements.
-/

namespace Lush.LispArrays

open Arrays Strides
open Binary (card24 memory swapBuffer searchReloc condSetFlags condClearFlags binaryStart)

/-! ## Tokens -/

/-- A token, with what follows its first byte. -/
inductive Token
  | ref (k : ℕ)
  | defn (k : ℕ)
  | nil
  | cons
  | number (x : BitVec 64)
  | array (ndim : ℤ) (dims : List ℤ)
deriving DecidableEq

/-- `write_card24` of an `int`. -/
def int24 (x : ℤ) : List UInt8 := card24 (x % 16777216).toNat

/-- `write_card32`. -/
def card32 (x : ℤ) : List UInt8 :=
  let n := (x % 4294967296).toNat
  [UInt8.ofNat (n / 16777216), UInt8.ofNat (n / 65536), UInt8.ofNat (n / 256), UInt8.ofNat n]

/-- The bytes of a token; the first one is its rank in `enum binarytokens`. -/
def Token.bytes (swapflag : Bool) : Token → List UInt8
  | .ref k => 1 :: card24 k
  | .defn k => 2 :: card24 k
  | .nil => [3]
  | .cons => [4]
  | .number x => 5 :: swapBuffer swapflag (memory swapflag x)
  | .array ndim dims => 11 :: (int24 ndim ++ dims.flatMap card32)

/-- The bytes of a token sequence. -/
def bytesOf (swapflag : Bool) (tokens : List Token) : List UInt8 :=
  tokens.flatMap (Token.bytes swapflag)

/-! ## Sweeps -/

variable {ν : Type}

/-- The flags and the relocation table, and the tokens written. -/
structure Writer (ν : Type) where
  marks : Binary.Writer ν
  out : List Token

/-- Emits one token. -/
def Writer.emit (w : Writer ν) (t : Token) : Writer ν := { w with out := w.out ++ [t] }

/-- `INT_MAX`. -/
def intMax : ℤ := 2147483647

/-- The number of dimensions, as it is written. -/
def ndimOf (ind : Index) : ℤ := if ind.unsized then -1 else ind.axes.length

/-- The part of `local_write` after the relocation. -/
def writeNode (o : Node (Option ν)) (w : Writer ν) : Except Fault (Bool × Writer ν) :=
  match o with
  | .cons _ _ => .ok (false, w.emit .cons)
  | .number x => .ok (true, w.emit (.number x))
  | .array ind _ =>
      let dims := (dimensions ind).getD []
      if ∀ d ∈ dims, d ≤ intMax then .ok (false, w.emit (.array (ndimOf ind) dims))
      else .error (.error "array dimension too large for binary format")

variable [LinearOrder ν]

/-- `local_write`. -/
def localWrite (heap : ν → Node (Option ν)) (p : Option ν) (w : Writer ν) :
    Except Fault (Bool × Writer ν) :=
  match p with
  | none => .ok (true, w.emit .nil)
  | some a =>
      if (w.marks.flags a).multiple then do
        let k ← searchReloc w.marks.reloc a
        match w.marks.reloc[k]? with
        | none => .error .undefined
        | some e =>
            if e.2 ≠ .empty then .ok (true, w.emit (.ref k))
            else writeNode (heap a) { w.emit (.defn k) with marks := w.marks.define k }
      else
        writeNode (heap a) w

variable [Fintype ν]

/-- `sweep`: the action, then what the node holds.  An action returns the `int` of the
source: `true` stops the recursion. -/
def sweep {σ : Type} (heap : ν → Node (Option ν))
    (action : Option ν → σ → Except Fault (Bool × σ)) (p : Option ν) (s : σ) : Except Fault σ :=
  Traversal.walk (refs heap) .depth
    (fun p s => do
      let (stop, s) ← action p s
      pure (!stop, s))
    (Fintype.card ν + 1) p s

/-! ## The file -/

/-- What a write puts on the file: the number of relocations announced, and the tokens. -/
structure Image where
  relocn : ℕ
  tokens : List Token

/-- The bytes of a file. -/
def Image.bytes (swapflag : Bool) (image : Image) : List UInt8 :=
  binaryStart :: card24 image.relocn ++ bytesOf swapflag image.tokens

/-- The sweeps of `bwrite`, from clear flags and an empty table. -/
def writeImage (heap : ν → Node (Option ν)) (p : Option ν) : Except Fault Image := do
  let marks ← sweep heap condSetFlags p ⟨fun _ => ⟨false, false⟩, [], []⟩
  let w ← sweep heap (localWrite heap) p ⟨marks, []⟩
  let _ ← sweep heap condClearFlags p w.marks
  pure ⟨w.marks.reloc.length, w.out⟩

/-- `bwrite`: the bytes put on the file, and the count returned. -/
def bwrite (swapflag : Bool) (heap : ν → Node (Option ν)) (inBwrite : ℤ) (p : Option ν) :
    Except Fault (List UInt8 × ℕ) :=
  if inBwrite ≠ 0 then
    .error (.error "Recursive binary read/write are forbidden")
  else do
    let image ← writeImage heap p
    let bytes := image.bytes swapflag
    pure (bytes, bytes.length)

end Lush.LispArrays
