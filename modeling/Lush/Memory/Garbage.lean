import Lush.Basic
import Lush.Library.Counting

/-!
# The garbage collector

`garbage(1)` flags all cells in use, takes the flag from what the named symbols
and the protected list reach, turns the remaining external objects into zombies,
counts the references anew, rebuilds the free list, and at last removes the
symbols that nothing uses.

The destructors and the finalizers of garbage objects are parameters of the
model: they run arbitrary code.  In the last phase every object in use is alive,
and a destructor does no more than to release the references of its object.
-/

namespace Lush.Memory

open Traversal Counting

variable {ν : Type}

/-! ## The heap -/

/-- The contents of an `at`.  A symbol has the values of the contexts that were
pushed on it, the last one first, and its global value, which is missing where
`valueptr` is null.  An external object has the references that `self_action`
goes through; so has a zombie, which keeps the slots of the object that it
was. -/
inductive Body (ν : Type)
  | cons (car cdr : Option ν)
  | number (x : BitVec 64)
  | symbol (stack : List (Option ν)) (value : Option (Option ν)) (nopurge : Bool)
  | external (fields : List (Option ν)) (oostruct : Bool)
  | zombie (fields : List (Option ν))

namespace Body

/-- The references that `mark` and `unflag` follow. -/
def refs : Body ν → List (Option ν)
  | .cons car cdr => [car, cdr]
  | .number _ => []
  | .symbol stack value _ => stack ++ [value.getD none]
  | .external fields _ => fields
  | .zombie fields => fields

/-- What `purge` releases before and after it puts the cell on the free list. -/
def parts : Body ν → List (Option ν) × List (Option ν)
  | .cons car cdr => ([car], [cdr])
  | b => (b.refs, [])

/-- `symbol_popall`. -/
def popall : Body ν → Body ν
  | .symbol _ value nopurge => .symbol [] value nopurge
  | b => b

/-- `C_EXTERN`. -/
def isExtern : Body ν → Bool
  | .cons _ _ | .number _ => false
  | .symbol _ _ _ | .external _ _ | .zombie _ => true

/-- `X_OOSTRUCT`. -/
def isOostruct : Body ν → Bool
  | .external _ oostruct => oostruct
  | _ => false

/-- `X_ZOMBIE`. -/
def isZombie : Body ν → Bool
  | .zombie _ => true
  | _ => false

end Body

/-- The cells, with the flags `C_GARBAGE` and `C_FINALIZER`; the symbols of the
names, in the order of the hash table; `protected`; and `at_alloc.freelist`.  A
cell is in use when its counter is not zero. -/
structure Heap (ν : Type) where
  count : ν → ℕ
  garbage : ν → Bool
  finalizer : ν → Bool
  body : ν → Body ν
  names : List ν
  guarded : Option ν
  freelist : List ν

/-- The references of the cells. -/
def Heap.refs (h : Heap ν) (a : ν) : List (Option ν) :=
  (h.body a).refs

/-- Where `unflag` and `mark` start. -/
def Heap.roots (h : Heap ν) : List (Option ν) :=
  h.names.map some ++ [h.guarded]

/-! ## The phases -/

/-- Every cell in use is flagged, and its counter raised. -/
def flagAll (h : Heap ν) : Heap ν :=
  { h with
    count := fun a => if h.count a ≠ 0 then h.count a + 0x40000000 else h.count a
    garbage := fun a => if h.count a ≠ 0 then true else h.garbage a }

/-- All symbols are popped. -/
def popAll [DecidableEq ν] (h : Heap ν) : Heap ν :=
  { h with body := h.names.foldl (fun body a => Function.update body a (body a).popall) h.body }

/-- `unflag`, at one object. -/
def unflag [DecidableEq ν] : Option ν → (ν → Bool) → Except Fault (Bool × (ν → Bool))
  | none, garbage => .ok (false, garbage)
  | some a, garbage =>
      if garbage a then .ok (true, Function.update garbage a false) else .ok (false, garbage)

/-- `oostruct_dispose`, `self_dispose` and `run_finalizers`. -/
structure Destructors (ν : Type) where
  oostructDispose : ν → Heap ν → Heap ν
  selfDispose : ν → Heap ν → Heap ν
  runFinalizers : ν → Heap ν → Heap ν

section Zombify

variable [DecidableEq ν] (d : Destructors ν)

/-- The flags and the class of a zombie, with no object left. -/
def Heap.zombify (h : Heap ν) (a : ν) : Heap ν :=
  { h with
    body := Function.update h.body a (.zombie [])
    garbage := Function.update h.garbage a true
    finalizer := Function.update h.finalizer a false }

/-- The first loop over the garbage: structured objects. -/
def zombifyOostruct (h : Heap ν) (a : ν) : Heap ν :=
  if h.count a ≠ 0 ∧ h.garbage a ∧ (h.body a).isOostruct then
    let h' := (d.oostructDispose a h).zombify a
    if h.finalizer a then d.runFinalizers a h' else h'
  else
    h

/-- The second loop: all external objects. -/
def zombifyExtern (h : Heap ν) (a : ν) : Heap ν :=
  if h.count a ≠ 0 ∧ h.garbage a then
    let h' := if (h.body a).isExtern then (d.selfDispose a h).zombify a else h
    if h.finalizer a then d.runFinalizers a h' else h'
  else
    h

end Zombify

/-- The counters and the flags are reset. -/
def reset (h : Heap ν) : Heap ν :=
  { h with
    count := fun a => if h.count a ≠ 0 then 0 else h.count a
    garbage := fun a => if h.count a ≠ 0 then false else h.garbage a }

/-- The free list is rebuilt; `cells` are the cells of all chunks. -/
def rebuild (cells : List ν) (h : Heap ν) : Heap ν :=
  { h with freelist := cells.foldl (fun free p => if h.count p = 0 then p :: free else free) [] }

/-- The test for a symbol that is not used.  All symbols have been popped. -/
def unusedSymbol (h : Heap ν) (a : ν) : Bool :=
  match h.body a with
  | .symbol [] value nopurge =>
      h.count a == 1 && !nopurge && !h.finalizer a &&
        match value with
        | some (some b) => (h.body b).isZombie
        | _ => true
  | _ => false

section Garbage

variable [DecidableEq ν] [Fintype ν]

/-- The last loop: `kill_name` removes the name, and releases the symbol.  The
names that are left come with the heap. -/
def purgeNames : List ν → Heap ν → Except Fault (List ν × Heap ν)
  | [], h => .ok ([], h)
  | a :: names, h =>
      if unusedSymbol h a then do
        let s ← release (fun b => (h.body b).parts) Fault.depth (Fintype.card ν + 1) (some a)
          ⟨h.count, h.freelist⟩
        purgeNames names { h with count := s.count, freelist := s.free }
      else do
        let (kept, h) ← purgeNames names h
        .ok (a :: kept, h)

/-- `garbage(1)`. -/
def garbage (d : Destructors ν) (cells : List ν) (h : Heap ν) : Except Fault (Heap ν) := do
  let h := popAll (flagAll h)
  let flags ← walkAll h.refs Fault.depth unflag (Fintype.card ν + 1) h.roots h.garbage
  let h := cells.foldl (zombifyOostruct d) { h with garbage := flags }
  let h := reset (cells.foldl (zombifyExtern d) h)
  let count ← walkAll h.refs Fault.depth tally (Fintype.card ν + 1) h.roots h.count
  let h := rebuild cells { h with count := count }
  let (names, h) ← purgeNames h.names h
  .ok { h with names := names }

end Garbage

end Lush.Memory
