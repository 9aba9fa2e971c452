import Lush.Binary.Write

/-!
# Reading an object graph

`local_bread` reads one reference into the place `pp` points to.  An object
that is referenced before its definition is complete is not known yet: the
places that wait for it are threaded through themselves.  `relocp[k]` points to
the last of them, each of them points to the one before, and
`define_refd_reloc` goes down the thread and puts the object everywhere.

So the fields of the cells under construction hold two kinds of pointers,
to objects and to places (`Word`).  The cells are numbered in the order of their
allocation; those that exist before the read are arbitrary.
-/

namespace Lush.Binary

/-! ## Words and places -/

/-- Where an `at *` can be stored. -/
inductive Slot
  | ans
  | field (n : ℕ) (x : Field)
deriving DecidableEq

/-- What such a place holds: a null pointer, an object, or a place of the
thread it is on. -/
inductive Word
  | null
  | obj (n : ℕ)
  | slot (s : Slot)
deriving DecidableEq

/-- A reference, as a word. -/
def Word.ofRef : Option ℕ → Word
  | none => .null
  | some n => .obj n

/-- The reference in a word; a place is not one. -/
def Word.ref : Word → Option ℕ
  | .obj n => some n
  | _ => none

@[simp] theorem Word.ref_ofRef (p : Option ℕ) : (Word.ofRef p).ref = p := by
  cases p <;> rfl

/-- The object with one field changed. -/
def setField (x : Field) (w : Word) : Object Word → Object Word
  | .cons car cdr =>
      match x with
      | .car => .cons w cdr
      | .cdr => .cons car w
  | o => o

/-! ## The state of a read -/

/-- The rest of the file, the cells, the relocation table, and the variable
`ans` of `bread`. -/
structure Reader where
  input : List UInt8
  cells : List (Object Word)
  reloc : RelocTable Word
  ans : Word

namespace Reader

/-- `*s`. -/
def get (r : Reader) : Slot → Option Word
  | .ans => some r.ans
  | .field n x => r.cells[n]?.bind fun o => o.field x

/-- `*s`, where the place has to exist. -/
def deref (r : Reader) (s : Slot) : Except Fault Word :=
  match r.get s with
  | some w => .ok w
  | none => .error .undefined

/-- `*s = w`. -/
def put (r : Reader) (s : Slot) (w : Word) : Reader :=
  match s with
  | .ans => { r with ans := w }
  | .field n x => { r with cells := r.cells.modify n (setField x w) }

/-- Puts a new object in a place. -/
def alloc (r : Reader) (pp : Slot) (o : Object Word) : Reader :=
  { r with cells := r.cells ++ [o] }.put pp (.obj r.cells.length)

/-- `relocp[k] = w`, `relocf[k] = f`. -/
def setReloc (r : Reader) (k : ℕ) (w : Word) (f : RelocFlag) : Reader :=
  { r with reloc := r.reloc.set k (w, f) }

/-- The cells as a heap of finished objects. -/
def heap (r : Reader) (n : ℕ) : Object (Option ℕ) :=
  ((r.cells[n]?).map (Object.map Word.ref)).getD .zombie

end Reader

/-! ## The reader -/

/-- `named`: the symbol with a given name, which is made if there is none. -/
def named (r : Reader) (pp : Slot) (name : CString) : Except Fault Reader :=
  if h : reservedName name.bytes = false then
    match r.cells.findIdx? fun o => o = .symbol ⟨name, h⟩ with
    | some n => .ok (r.put pp (.obj n))
    | none => .ok (r.alloc pp (.symbol ⟨name, h⟩))
  else
    .error (.error "belongs to a reserved package... ")

/-- `define_refd_reloc`, from the place or null pointer `h` down the thread; the
second argument bounds the number of rounds. -/
def defineRefdReloc (p : Word) : ℕ → Word → Reader → Except Fault Reader
  | 0, _, _ => .error .depth
  | _ + 1, .null, r => .ok r
  | _ + 1, .obj _, _ => .error .undefined
  | rounds + 1, .slot s, r => do
      let f ← r.deref s
      defineRefdReloc p rounds f (r.put s p)

/-- `local_bread`.  The value tells that the reference read is not resolved;
`ret` is the variable of the source, cleared on the way down a list. -/
def localBread (swapflag : Bool) : ℕ → Bool → Slot → Reader → Except Fault (Bool × Reader)
  | 0, _, _, _ => .error .depth
  | fuel + 1, ret, pp, r => do
      let (tok, input) ← readCard8 r.input
      match tok with
      | 2 => do -- TOK_DEF
          let (xdef, input) ← readCard24 input
          let (unresolved, r) ← localBread swapflag fuel true pp { r with input }
          if unresolved then
            .error (.error "corrupted binary file (unresolved ref follows def)")
          else
            match r.reloc[xdef]? with
            | none => .error .undefined
            | some (h, f) => do
                if f = .defd then
                  .error (.error "corrupted binary file (duplicate reloc definition)")
                else
                  let p ← r.deref pp
                  let r ← if f = .refd then
                      defineRefdReloc p (2 * r.cells.length + 2) h r
                    else
                      .ok r
                  let p ← r.deref pp
                  .ok (false, r.setReloc xdef p .defd)
      | 1 => do -- TOK_REF
          let (xdef, input) ← readCard24 input
          match r.reloc[xdef]? with
          | none => .error (.error "corrupted binary file (illegal ref)")
          | some (w, f) =>
              let r := { r with input }.put pp w
              if f = .defd then .ok (false, r) else .ok (ret, r.setReloc xdef (.slot pp) .refd)
      | 3 => -- TOK_NIL
          .ok (false, { r with input }.put pp .null)
      | 4 => do -- TOK_CONS
          let n := r.cells.length
          let r := { r with input }.alloc pp (.cons .null .null)
          let (_, r) ← localBread swapflag fuel true (.field n .car) r
          localBread swapflag fuel false (.field n .cdr) r
      | 5 => do -- TOK_NUMBER
          let (buffer, input) ← readBuffer 8 input
          let x := ofMemory swapflag (swapBuffer swapflag buffer)
          .ok (false, { r with input }.alloc pp (.number x))
      | 6 => do -- TOK_STRING
          let (l, input) ← readCard24 input
          let (buffer, input) ← readBuffer l input
          .ok (false, { r with input }.alloc pp (.string (cstring buffer)))
      | 7 => do -- TOK_SYMBOL
          let (l, input) ← readCard24 input
          if stringBuffer ≤ l then
            .error .undefined
          else
            let (buffer, input) ← readBuffer l input
            let r ← named { r with input } pp (cstring buffer)
            .ok (false, r)
      | tok =>
          if 8 ≤ tok ∧ tok ≤ 17 then .error .unmodelled
          else .error (.error "corrupted binary file (illegal token in file)")

/-- `bread`, when the memory holds `cells`.  Before it reports unresolved
relocations, `forbid_refd_reloc` puts `NIL` in the places that wait for them. -/
def bread (swapflag : Bool) (cells : List (Object Word)) (inBwrite : ℤ) (file : List UInt8) :
    Except Fault Reader :=
  if inBwrite ≠ 0 then
    .error (.error "Recursive binary read/write are forbidden")
  else do
    let (tok, input) ← readCard8 file
    if tok ≠ binaryStart.toNat then
      .error (.error "corrupted binary file (cannot find BINARYSTART)")
    else
      let (relocn, input) ← readCard24 input
      if relocn > 10000000 then
        .error (.error "corrupted binary file (illegal reloc number)")
      else
        let r : Reader := ⟨input, cells, List.replicate relocn (.null, .empty), .null⟩
        let (_, r) ← localBread swapflag (input.length + 1) true .ans r
        if r.reloc.any fun e => e.2 ≠ .defd then
          .error (.error "Corrupted binary file (unresolved relocs)")
        else
          .ok r

end Lush.Binary
