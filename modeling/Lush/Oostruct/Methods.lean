import Lush.Basic
import Lush.Library.Probing

/-!
# Classes and methods

A class has a list of its own methods, and a hash table of all methods that its objects
understand, those of its superclasses included.  `putmethod` only changes the list, and
marks the tables of the class and of its subclasses as out of date; `getmethod` builds
the table again when it needs it.

Symbols stand for their addresses, on which the hash function works.  The function of a
method may be deleted, and is a zombie then.
-/

namespace Lush.Oostruct

open Probing

variable {φ : Type}

/-! ## Memory -/

/-- The hash table of a class: for a symbol, `function` and `sofar`. -/
abbrev Hashtable (φ : Type) := Table ℕ (φ × ℕ)

/-- A class.  The chain from `subclasses` along `nextclass` is a list here, and `object`
says whether `self_dispose` is `oostruct_dispose`. -/
structure Class (φ : Type) where
  super : Option ℕ
  subclasses : List ℕ
  object : Bool
  slotssofar : ℕ
  methods : List (ℕ × φ)
  hashtable : Option (Hashtable φ)
  hashsize : ℕ
  hashok : Bool

/-- The classes, of which the first `count` exist, and the deleted functions. -/
structure Heap (φ : Type) where
  classes : ℕ → Class φ
  count : ℕ
  zombies : List φ

/-- A class without superclass, as `class_define` makes it. -/
def rootClass (φ : Type) (object : Bool) : Class φ := ⟨none, [], object, 0, [], none, 0, false⟩

/-- `init_oostruct`: the class `object`. -/
def init (φ : Type) : Heap φ := ⟨fun _ => rootClass φ true, 1, []⟩

def Heap.set (h : Heap φ) (c : ℕ) (cl : Class φ) : Heap φ :=
  { h with classes := Function.update h.classes c cl }

/-! ## New classes -/

/-- `class_define`. -/
def classDefine (h : Heap φ) : Heap φ :=
  { h.set h.count (rootClass φ false) with count := h.count + 1 }

/-- `new_ooclass`, with the number of slots in `keylist`. -/
def newOoclass (h : Heap φ) (superclass slots : ℕ) : Except Fault (Heap φ) :=
  if h.count ≤ superclass then .error (.error "not a class")
  else if (h.classes superclass).object = false then
    .error (.error "superclass does not inherit class <object>")
  else
    let super := h.classes superclass
    let cl : Class φ := ⟨some superclass, [], true, super.slotssofar + slots, [], none, 0, false⟩
    let h := h.set superclass { super with subclasses := h.count :: super.subclasses }
    .ok { h.set h.count cl with count := h.count + 1 }

/-! ## Methods -/

/-- `clear_hashok`. -/
def clearHashok : ℕ → Heap φ → ℕ → Except Fault (Heap φ)
  | 0, _, _ => .error .depth
  | fuel + 1, h, cl =>
      let h := h.set cl { h.classes cl with hashok := false }
      (h.classes cl).subclasses.foldlM (clearHashok fuel) h

/-- The loop of `putmethod` over the list of the methods. -/
def putEntry (name : ℕ) (value : Option φ) : List (ℕ × φ) → List (ℕ × φ)
  | [] =>
      match value with
      | some value => [(name, value)]
      | none => []
  | q :: rest =>
      if q.1 = name then
        match value with
        | some value => (q.1, value) :: rest
        | none => rest
      else q :: putEntry name value rest

section Zombies

variable [DecidableEq φ]

/-- `putmethod`.  A zombie is not a function. -/
def putmethod (h : Heap φ) (cl name : ℕ) (value : Option φ) : Except Fault (Heap φ) :=
  if h.count ≤ cl then .error (.error "Not a class")
  else if ∃ f ∈ h.zombies, value = some f then .error (.error "Not a function")
  else do
    let h ← clearHashok h.count h cl
    .ok (h.set cl { h.classes cl with methods := putEntry name value (h.classes cl).methods })

/-! ## Hash tables -/

/-- `HASH`. -/
def hash (size q : ℕ) : ℕ := q % (size - 3)

/-- The classes from `cl` on along `super`. -/
def chain (super : ℕ → Option ℕ) : ℕ → ℕ → List ℕ
  | 0, _ => []
  | fuel + 1, cl => cl :: ((super cl).map (chain super fuel)).getD []

def Heap.chain (h : Heap φ) (cl : ℕ) : List ℕ :=
  Oostruct.chain (fun c => (h.classes c).super) h.count cl

/-- The size that `update_hashtable` starts from. -/
def startSize : ℕ → ℕ → ℕ → ℕ
  | 0, size, _ => size
  | rounds + 1, size, nclass => if size < nclass then startSize rounds (size * 2) nclass else size

/-- The methods of one class go into the table, and zombies out of the list.  When there
is no room for a method, the rest of the list stays as it is. -/
def grabMethods (zombies : List φ) (size sofar : ℕ) :
    List (ℕ × φ) → Hashtable φ → List (ℕ × φ) × Option (Hashtable φ)
  | [], table => ([], some table)
  | (prop, value) :: rest, table =>
      if value ∈ zombies then grabMethods zombies size sofar rest table
      else
        match insertFrom table prop (value, sofar) 3 (hash size prop) with
        | none => ((prop, value) :: rest, none)
        | some table =>
            let (rest, table) := grabMethods zombies size sofar rest table
            ((prop, value) :: rest, table)

/-- The methods of the classes go into the table. -/
def grabClasses (size : ℕ) : List ℕ → Heap φ → Hashtable φ → Heap φ × Option (Hashtable φ)
  | [], h, table => (h, some table)
  | c :: chain, h, table =>
      let cl := h.classes c
      let (methods, table) := grabMethods h.zombies size cl.slotssofar cl.methods table
      let h := h.set c { cl with methods := methods }
      match table with
      | none => (h, none)
      | some table => grabClasses size chain h table

/-- `update_hashtable` from the label `restart` on. -/
def restart (cl : ℕ) : ℕ → ℕ → Heap φ → Except Fault (Heap φ)
  | 0, _, _ => .error .depth
  | rounds + 1, size, h =>
      let size := 2 * size
      let (h, table) := grabClasses size (h.chain cl) h empty
      match table with
      | none => restart cl rounds size h
      | some table => .ok (h.set cl { h.classes cl with
          hashtable := some table, hashsize := size, hashok := true })

/-- `update_hashtable`.  When the size is greater than all addresses, there is room for
all methods. -/
def updateHashtable (h : Heap φ) (cl : ℕ) : Except Fault (Heap φ) :=
  let methods := (h.chain cl).flatMap fun c => (h.classes c).methods
  let nclass := methods.length
  restart cl ((methods.map Prod.fst).sum + 1) (startSize nclass 16 nclass) h

/-- `getmethod`.  After a zombie was found it is called again. -/
def getmethodLoop : ℕ → Heap φ → ℕ → ℕ → Except Fault (Heap φ × Option (φ × ℕ))
  | 0, _, _, _ => .error .depth
  | fuel + 1, h, cl, prop => do
      let h ← (if (h.classes cl).hashok then .ok h else updateHashtable h cl)
      match (h.classes cl).hashtable with
      | none => .ok (h, none)
      | some table =>
          match findFrom table prop 3 (hash (h.classes cl).hashsize prop) with
          | none => .ok (h, none)
          | some hx =>
              if hx.1 ∈ h.zombies then do
                let h ← clearHashok h.count h cl
                getmethodLoop fuel h cl prop
              else .ok (h, some hx)

def getmethod (h : Heap φ) (cl prop : ℕ) : Except Fault (Heap φ × Option (φ × ℕ)) :=
  getmethodLoop 2 h cl prop

end Zombies

end Lush.Oostruct
