import Lush.Binary.Format
import Lush.Library.Backpatch
import Lush.LispArrays.Write

/-!
# Reading Lisp arrays

`local_bread` on conses, numbers and Lisp arrays.  A new array is contiguous, and its
elements are read into its storage one after the other; the places that wait for an object
under construction may be in the storage of an array too.
-/

namespace Lush.LispArrays

open Arrays Strides
open Binary (readCard8 readCard24 readBuffer ofMemory swapBuffer binaryStart)
open Backpatch (Flag)

/-! ## Places -/

/-- Where an `at *` can be stored: the variable `ans` of `bread`, or a field of a cell.
The fields of a cons are `Car` and `Cdr`, those of an array are the places of its
storage. -/
inductive Slot
  | ans
  | field (n i : ℕ)
deriving DecidableEq

/-- What a place holds. -/
abbrev Word := Backpatch.Word Slot

variable {ρ : Type}

/-- The fields of a cell. -/
def Node.fields : Node ρ → List ρ
  | .cons car cdr => [car, cdr]
  | .number _ => []
  | .array _ data => data

/-- The cell with one field changed. -/
def Node.setField (i : ℕ) (w : ρ) : Node ρ → Node ρ
  | .cons car cdr =>
      match i with
      | 0 => .cons w cdr
      | 1 => .cons car w
      | _ => .cons car cdr
  | .number x => .number x
  | .array ind data => .array ind (data.set i w)

/-! ## The state of a read -/

/-- The rest of the file, the cells, the relocation table, and the variable `ans` of
`bread`. -/
structure Reader where
  input : List UInt8
  cells : List (Node Word)
  reloc : List (Word × Flag)
  ans : Word

namespace Reader

/-- `*s`. -/
def get (r : Reader) : Slot → Option Word
  | .ans => some r.ans
  | .field n i => r.cells[n]?.bind fun o => o.fields[i]?

/-- `*s`, where the place has to exist. -/
def deref (r : Reader) (s : Slot) : Except Fault Word :=
  match r.get s with
  | some w => .ok w
  | none => .error .undefined

/-- `*s = w`. -/
def put (r : Reader) (s : Slot) (w : Word) : Reader :=
  match s with
  | .ans => { r with ans := w }
  | .field n i => { r with cells := r.cells.modify n (Node.setField i w) }

/-- Puts a new object in a place. -/
def alloc (r : Reader) (pp : Slot) (o : Node Word) : Reader :=
  { r with cells := r.cells ++ [o] }.put pp (.obj r.cells.length)

/-- `relocp[k] = w`, `relocf[k] = f`. -/
def setReloc (r : Reader) (k : ℕ) (w : Word) (f : Flag) : Reader :=
  { r with reloc := r.reloc.set k (w, f) }

/-- The cells as a heap of finished objects. -/
def heap (r : Reader) (n : ℕ) : Node (Option ℕ) :=
  ((r.cells[n]?).map (Node.map Backpatch.Word.ref)).getD (.number 0)

end Reader

/-! ## The reader -/

/-- `read_card32`. -/
def readCard32 : List UInt8 → Except Fault (ℤ × List UInt8)
  | c0 :: c1 :: c2 :: c3 :: rest =>
      .ok ((BitVec.ofNat 32
        (((c0.toNat * 256 + c1.toNat) * 256 + c2.toNat) * 256 + c3.toNat)).toInt, rest)
  | _ => .error (.error "End of file during bread")

/-- So many dimensions. -/
def readDims : ℕ → List UInt8 → Except Fault (List ℤ × List UInt8)
  | 0, input => .ok ([], input)
  | n + 1, input => do
      let (d, input) ← readCard32 input
      let (dims, input) ← readDims n input
      .ok (d :: dims, input)

/-- Why `index_dimension` refuses the dimensions of a new array. -/
def dimensionError (unkn : Bool) : List ℤ → String
  | [] => "Cannot compute storage size"
  | d :: dims =>
      if 0 < d then dimensionError unkn dims
      else if d = 0 then
        if unkn then "more than one unspecified dimension" else dimensionError true dims
      else "illegal dimension"

/-- `define_refd_reloc`, from the place or null pointer `h` down the thread; the second
argument bounds the number of rounds. -/
def defineRefdReloc (p : Word) : ℕ → Word → Reader → Except Fault Reader
  | 0, _, _ => .error .depth
  | _ + 1, .null, r => .ok r
  | _ + 1, .obj _, _ => .error .undefined
  | rounds + 1, .slot s, r => do
      let f ← r.deref s
      defineRefdReloc p rounds f (r.put s p)

/-- The number of places in the cells. -/
def places (r : Reader) : ℕ := (r.cells.map fun o => o.fields.length).sum

/-- `local_bread`.  The value tells that the reference read is not resolved; `ret` is the
variable of the source, cleared on the way down a list. -/
def localBread (swapflag : Bool) : ℕ → Bool → Slot → Reader → Except Fault (Bool × Reader)
  | 0, _, _, _ => .error .depth
  | fuel + 1, ret, pp, r => do
      let (tok, input) ← readCard8 r.input
      match tok with
      | 2 => do -- TOK_DEF
          let (xdef, input) ← readCard24 input
          let (unresolved, r) ← localBread swapflag fuel true pp { r with input }
          if unresolved then
            .error (.error "corrupted binary file (unresolved ref follows def)")
          else
            match r.reloc[xdef]? with
            | none => .error .undefined
            | some (h, f) => do
                if f = .defd then
                  .error (.error "corrupted binary file (duplicate reloc definition)")
                else
                  let p ← r.deref pp
                  let r ← if f = .refd then
                      defineRefdReloc p (places r + 3) h r
                    else
                      .ok r
                  let p ← r.deref pp
                  .ok (false, r.setReloc xdef p .defd)
      | 1 => do -- TOK_REF
          let (xdef, input) ← readCard24 input
          match r.reloc[xdef]? with
          | none => .error (.error "corrupted binary file (illegal ref)")
          | some (w, f) =>
              let r := { r with input }.put pp w
              if f = .defd then .ok (false, r) else .ok (ret, r.setReloc xdef (.slot pp) .refd)
      | 3 => -- TOK_NIL
          .ok (false, { r with input }.put pp .null)
      | 4 => do -- TOK_CONS
          let n := r.cells.length
          let r := { r with input }.alloc pp (.cons .null .null)
          let (_, r) ← localBread swapflag fuel true (.field n 0) r
          localBread swapflag fuel false (.field n 1) r
      | 5 => do -- TOK_NUMBER
          let (buffer, input) ← readBuffer 8 input
          let x := ofMemory swapflag (swapBuffer swapflag buffer)
          .ok (false, { r with input }.alloc pp (.number x))
      | 11 => do -- TOK_ARRAY: `local_bread_array`
          let (ndim, input) ← readCard24 input
          if ndim = 0xFFFFFF then
            .ok (false, { r with input }.alloc pp (.array (newIndex 0) []))
          else if ndim < maxDims then do
            let (dims, input) ← readDims ndim input
            match indexDimension none (newIndex 0) dims with
            | none => .error (.error (dimensionError false dims))
            | some (size, ind) => do
                let n := r.cells.length
                let r := { r with input }.alloc pp (.array ind (List.replicate size.toNat .null))
                let r ← (List.range dims.prod.toNat).foldlM (fun r i => do
                  let (_, r) ← localBread swapflag fuel true (.field n i) r
                  pure r) r
                .ok (false, r)
          else
            .error (.error "corrupted binary file")
      | tok =>
          if 6 ≤ tok ∧ tok ≤ 17 then .error .unmodelled
          else .error (.error "corrupted binary file (illegal token in file)")

/-- Without fuel, nothing is read. -/
@[simp] theorem localBread_zero (swapflag ret : Bool) (pp : Slot) (r : Reader) :
    localBread swapflag 0 ret pp r = .error .depth := by
  rw [localBread]

/-- `bread`, when the memory holds `cells`.  Before it reports unresolved relocations,
`forbid_refd_reloc` puts `NIL` in the places that wait for them. -/
def bread (swapflag : Bool) (cells : List (Node Word)) (inBwrite : ℤ) (file : List UInt8) :
    Except Fault Reader :=
  if inBwrite ≠ 0 then
    .error (.error "Recursive binary read/write are forbidden")
  else do
    let (tok, input) ← readCard8 file
    if tok ≠ binaryStart.toNat then
      .error (.error "corrupted binary file (cannot find BINARYSTART)")
    else
      let (relocn, input) ← readCard24 input
      if relocn > 10000000 then
        .error (.error "corrupted binary file (illegal reloc number)")
      else
        let r : Reader := ⟨input, cells, List.replicate relocn (.null, .empty), .null⟩
        let (_, r) ← localBread swapflag (input.length + 1) true .ans r
        if r.reloc.any fun e => e.2 ≠ .defd then
          .error (.error "Corrupted binary file (unresolved relocs)")
        else
          .ok r

end Lush.LispArrays
