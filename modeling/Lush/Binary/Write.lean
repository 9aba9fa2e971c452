import Lush.Binary.Format

/-!
# Writing an object graph

`bwrite` sweeps the graph three times.  The first sweep (`cond_set_flags`)
finds the objects met through several references and enters them in the
relocation table, sorted by address; the second (`local_write`) emits the
tokens; the third (`cond_clear_flags`) clears the temporary flags.

The table is kept as a list of pairs, `relocp` and `relocf` entry by entry.
Addresses are compared, so `ν` is a linear order.
-/

namespace Lush.Binary

variable {ν : Type}

/-! ## The relocation table -/

/-- `R_EMPTY`, `R_REFD`, `R_DEFD`. -/
inductive RelocFlag
  | empty
  | refd
  | defd
deriving DecidableEq

/-- `relocp` and `relocf`, entry by entry. -/
abbrev RelocTable (ν : Type) := List (ν × RelocFlag)

section Reloc

variable [LinearOrder ν]

/-- `insert_reloc`: from the last entry down, the entries that are not below
`p` slide up by one, and `p` takes the place that they leave. -/
def insertReloc (p : ν) (table : RelocTable ν) : Except Fault (RelocTable ν) :=
  let under := table.rdropWhile fun e => p ≤ e.1
  let above := table.rtakeWhile fun e => p ≤ e.1
  if above.head?.map Prod.fst = some p then
    .error (.error "Internal error: relocation requested twice")
  else
    .ok (under ++ (p, .empty) :: above)

/-- The loop of `search_reloc`; `hi` is one above the variable of the source,
and the first argument bounds the number of rounds. -/
def searchLoop (table : RelocTable ν) (p : ν) : ℕ → ℕ → ℕ → Except Fault ℕ
  | 0, _, _ => .error .depth
  | rounds + 1, lo, hi =>
      if lo < hi then
        let k := (lo + hi - 1) / 2
        match table[k]? with
        | none => .error .undefined
        | some e =>
            if e.1 < p then searchLoop table p rounds (k + 1) hi
            else if p < e.1 then searchLoop table p rounds lo k
            else .ok k
      else
        .error (.error "Internal error: relocation search failed")

/-- `search_reloc`. -/
def searchReloc (table : RelocTable ν) (p : ν) : Except Fault ℕ :=
  searchLoop table p (table.length + 1) 0 table.length

end Reloc

/-! ## The state of a write -/

/-- The temporary flags of an object: `C_MARK` and `C_MULTIPLE`. -/
structure Flags where
  mark : Bool
  multiple : Bool
deriving DecidableEq

/-- The flags of all objects, the relocation table, and the tokens written. -/
structure Writer (ν : Type) where
  flags : ν → Flags
  reloc : RelocTable ν
  out : List Token

namespace Writer

/-- Emits one token. -/
def emit (w : Writer ν) (t : Token) : Writer ν :=
  { w with out := w.out ++ [t] }

/-- `relocf[k] = R_DEFD`. -/
def define (w : Writer ν) (k : ℕ) : Writer ν :=
  { w with reloc := w.reloc.modify k fun e => (e.1, .defd) }

/-- Changes the flags of one object. -/
def setFlags [DecidableEq ν] (w : Writer ν) (a : ν) (f : Flags) : Writer ν :=
  { w with flags := Function.update w.flags a f }

end Writer

/-! ## The sweeps

An action returns the `int` of the source: `true` stops the recursion. -/

variable [LinearOrder ν]

/-- `cond_set_flags`. -/
def condSetFlags (p : Option ν) (w : Writer ν) : Except Fault (Bool × Writer ν) :=
  match p with
  | none => .ok (true, w)
  | some a =>
      if (w.flags a).mark then do
        let reloc ← if (w.flags a).multiple then pure w.reloc else insertReloc a w.reloc
        .ok (true, { w with reloc }.setFlags a { w.flags a with multiple := true })
      else
        .ok (false, w.setFlags a { w.flags a with mark := true })

/-- `cond_clear_flags`. -/
def condClearFlags (p : Option ν) (w : Writer ν) : Except Fault (Bool × Writer ν) :=
  match p with
  | none => .ok (true, w)
  | some a =>
      if (w.flags a).mark then .ok (false, w.setFlags a ⟨false, false⟩) else .ok (true, w)

/-- The part of `local_write` after the relocation: the token of the object
itself. -/
def writeObject (o : Object (Option ν)) (w : Writer ν) : Bool × Writer ν :=
  match o with
  | .cons _ _ => (false, w.emit .cons)
  | .number x => (true, w.emit (.number x))
  | .string s => (true, w.emit (.string s.bytes))
  | .symbol name => (true, w.emit (.symbol name.bytes))
  | .zombie => (true, w.emit .nil)

/-- `local_write`. -/
def localWrite (heap : ν → Object (Option ν)) (p : Option ν) (w : Writer ν) :
    Except Fault (Bool × Writer ν) :=
  match p with
  | none => .ok (true, w.emit .nil)
  | some a =>
      if heap a = .zombie then .ok (true, w.emit .nil)
      else if (w.flags a).multiple then do
        let k ← searchReloc w.reloc a
        match w.reloc[k]? with
        | none => .error .undefined
        | some e =>
            if e.2 ≠ .empty then .ok (true, w.emit (.ref k))
            else .ok (writeObject (heap a) ((w.emit (.defn k)).define k))
      else
        .ok (writeObject (heap a) w)

variable [Fintype ν]

/-- `sweep`: the action, then `Car`, then `Cdr`.  Among the objects under study
the cons cells alone are swept through. -/
def sweep (heap : ν → Object (Option ν)) (action : Option ν → Writer ν → Except Fault (Bool × Writer ν))
    (p : Option ν) (w : Writer ν) : Except Fault (Writer ν) :=
  Traversal.walk (refs heap) .depth
    (fun p w => do
      let (stop, w) ← action p w
      pure (!stop, w))
    (Fintype.card ν + 1) p w

/-- `set_flags`. -/
def setFlags (heap : ν → Object (Option ν)) (p : Option ν) (w : Writer ν) : Except Fault (Writer ν) :=
  sweep heap condSetFlags p w

/-- `clear_flags`. -/
def clearFlags (heap : ν → Object (Option ν)) (p : Option ν) (w : Writer ν) : Except Fault (Writer ν) :=
  sweep heap condClearFlags p w

/-! ## The file -/

/-- What a write puts on the file: the number of relocations announced, and the
tokens. -/
structure Image where
  relocn : ℕ
  tokens : List Token

/-- The bytes of a file. -/
def Image.bytes (swapflag : Bool) (image : Image) : List UInt8 :=
  binaryStart :: card24 image.relocn ++ bytesOf swapflag image.tokens

/-- The sweeps of `bwrite`, from clear flags and an empty table. -/
def writeImage (heap : ν → Object (Option ν)) (p : Option ν) : Except Fault (Image × Writer ν) := do
  let w ← setFlags heap p ⟨fun _ => ⟨false, false⟩, [], []⟩
  let w ← sweep heap (localWrite heap) p w
  let cleared ← clearFlags heap p w
  pure (⟨w.reloc.length, w.out⟩, cleared)

/-- `bwrite`: the bytes put on the file, and the count returned. -/
def bwrite (swapflag : Bool) (heap : ν → Object (Option ν)) (inBwrite : ℤ) (p : Option ν) :
    Except Fault (List UInt8 × ℕ) :=
  if inBwrite ≠ 0 then
    .error (.error "Recursive binary read/write are forbidden")
  else do
    let (image, _) ← writeImage heap p
    let bytes := image.bytes swapflag
    pure (bytes, bytes.length)

end Lush.Binary
