import Lush.Basic
import Lush.Library.Traversal

/-!
# Lisp objects and the graphs they form

An `at` is a cons cell, a number, or an external object; the external objects
that matter here are strings, symbols and zombies (the objects that have been
deleted: "zombie means nil").  A heap is a map from addresses to objects, over
an arbitrary type `ν` of addresses; an `at *` is an `Option ν`, with `none` for
`NIL`.  `Object` is generic in the references it holds, because the binary
reader keeps other things than objects in the fields of the cells it builds.

A symbol name does not start with two colons, because `new_symbol` refuses to make such a symbol.
Numbers are the 64 bits of a `real`.
-/

namespace Lush

/-! ## Payloads -/

/-- `new_symbol`: names that start with `::` belong to a reserved package. -/
def reservedName : List UInt8 → Bool
  | 58 :: 58 :: _ => true
  | _ => false

/-- The name of a symbol that `new_symbol` can make. -/
structure SymbolName extends CString where
  unreserved : reservedName bytes = false
deriving DecidableEq

/-! ## Objects -/

/-- The two fields of a cons cell. -/
inductive Field
  | car
  | cdr
deriving DecidableEq

/-- One object; `ρ` is what its fields hold. -/
inductive Object (ρ : Type*)
  | cons (car cdr : ρ)
  | number (x : BitVec 64)
  | string (s : CString)
  | symbol (name : SymbolName)
  | zombie
deriving DecidableEq

namespace Object

variable {ρ ρ' : Type*}

/-- The references an object holds. -/
def children : Object ρ → List ρ
  | .cons car cdr => [car, cdr]
  | _ => []

/-- The contents of a field, for a cons cell. -/
def field : Object ρ → Field → Option ρ
  | .cons car _, .car => some car
  | .cons _ cdr, .cdr => some cdr
  | _, _ => none

theorem mem_children_iff {o : Object ρ} {p : ρ} :
    p ∈ o.children ↔ ∃ f, o.field f = some p := by
  cases o with
  | cons car cdr =>
      simp only [children, List.mem_cons, List.not_mem_nil, or_false]
      refine ⟨?_, ?_⟩
      · rintro (rfl | rfl)
        exacts [⟨.car, rfl⟩, ⟨.cdr, rfl⟩]
      · rintro ⟨f, hf⟩
        cases f <;> simp only [field, Option.some.injEq] at hf
        exacts [Or.inl hf.symm, Or.inr hf.symm]
  | number x => simp [children, field]
  | string s => simp [children, field]
  | symbol name => simp [children, field]
  | zombie => simp [children, field]

/-- What can be seen of an object without following its references. -/
inductive Label
  | nil
  | cons
  | number (x : BitVec 64)
  | string (s : List UInt8)
  | symbol (name : List UInt8)
  | zombie
deriving DecidableEq

/-- The constructor and the payload of an object. -/
def label : Object ρ → Label
  | .cons _ _ => .cons
  | .number x => .number x
  | .string s => .string s.bytes
  | .symbol name => .symbol name.bytes
  | .zombie => .zombie

/-- The same object with other references. -/
def map (f : ρ → ρ') : Object ρ → Object ρ'
  | .cons car cdr => .cons (f car) (f cdr)
  | .number x => .number x
  | .string s => .string s
  | .symbol name => .symbol name
  | .zombie => .zombie

@[simp] theorem label_map (f : ρ → ρ') (o : Object ρ) : (o.map f).label = o.label := by
  cases o <;> rfl

@[simp] theorem field_map (f : ρ → ρ') (o : Object ρ) (x : Field) :
    (o.map f).field x = (o.field x).map f := by
  cases o <;> cases x <;> rfl

@[simp] theorem children_map (f : ρ → ρ') (o : Object ρ) : (o.map f).children = o.children.map f := by
  cases o <;> rfl

theorem map_congr {f f' : ρ → ρ'} {o : Object ρ} (h : ∀ p ∈ o.children, f p = f' p) :
    o.map f = o.map f' := by
  cases o with
  | cons car cdr =>
      rw [map, map, h car (by simp [children]), h cdr (by simp [children])]
  | number x => rfl
  | string s => rfl
  | symbol name => rfl
  | zombie => rfl

theorem map_map {ρ'' : Type*} (f : ρ → ρ') (g : ρ' → ρ'') (o : Object ρ) :
    (o.map f).map g = o.map (g ∘ f) := by
  cases o <;> rfl

end Object

/-! ## Paths -/

variable {ν : Type*}

/-- Following `Car` and `Cdr` from a reference: `none` where the path leaves
the cons cells. -/
def follow (heap : ν → Object (Option ν)) : Option ν → List Field → Option (Option ν)
  | p, [] => some p
  | none, _ :: _ => none
  | some a, f :: path =>
      match (heap a).field f with
      | some q => follow heap q path
      | none => none

@[simp] theorem follow_nil (heap : ν → Object (Option ν)) (p : Option ν) : follow heap p [] = some p := by
  cases p <;> rfl

@[simp] theorem follow_none_cons (heap : ν → Object (Option ν)) (f : Field) (path : List Field) :
    follow heap none (f :: path) = none := rfl

theorem follow_some_cons (heap : ν → Object (Option ν)) (a : ν) (f : Field) (path : List Field) :
    follow heap (some a) (f :: path) =
      ((heap a).field f).bind fun q => follow heap q path := by
  rw [follow]
  cases (heap a).field f <;> rfl

/-- What is seen through a reference. -/
def labelOf (heap : ν → Object (Option ν)) : Option ν → Object.Label
  | none => .nil
  | some a => (heap a).label

/-- Zombie means nil. -/
def alive [DecidableEq ν] (heap : ν → Object (Option ν)) : Option ν → Option ν
  | none => none
  | some a => if heap a = .zombie then none else some a

/-- The references a heap cell holds, as a graph for traversals. -/
def refs (heap : ν → Object (Option ν)) (a : ν) : List (Option ν) :=
  (heap a).children

/-- What is reachable from a field is reachable from the cell. -/
theorem reachable_of_field {heap : ν → Object (Option ν)} {a b : ν} {f : Field} {q : Option ν}
    (hq : (heap a).field f = some q) (h : Traversal.Reachable (refs heap) [q] b) :
    Traversal.Reachable (refs heap) [some a] b := by
  have hmem : q ∈ refs heap a := Object.mem_children_iff.mpr ⟨f, hq⟩
  have hsub : [q] ⊆ refs heap a := by simpa using hmem
  exact (Traversal.Reachable.mono hsub h).of_children

/-- What a path leads to is reachable. -/
theorem reachable_of_follow {heap : ν → Object (Option ν)} {p : Option ν} {path : List Field} {a : ν}
    (h : follow heap p path = some (some a)) : Traversal.Reachable (refs heap) [p] a := by
  induction path generalizing p with
  | nil =>
      rw [follow_nil, Option.some.injEq] at h
      exact .of_mem (by simp [h])
  | cons f path ih =>
      cases p with
      | none => simp at h
      | some b =>
          rw [follow_some_cons, Option.bind_eq_some_iff] at h
          obtain ⟨q, hq, hpath⟩ := h
          exact reachable_of_field hq (ih hpath)

/-! ## Isomorphic graphs -/

variable {μ : Type*}

/-- Two graphs are isomorphic when every path leads to the same constructor and
payload in both, and two paths lead to the same object in both or in neither;
symbols are compared by their names alone. -/
structure Isomorphic (heap : ν → Object (Option ν)) (p : Option ν) (heap' : μ → Object (Option μ))
    (p' : Option μ) : Prop where
  labels : ∀ path, (follow heap p path).map (labelOf heap) =
    (follow heap' p' path).map (labelOf heap')
  sharing : ∀ path path' a b, follow heap p path = some (some a) →
    follow heap p path' = some (some b) → (∀ name, (heap a).label ≠ .symbol name) →
    (follow heap' p' path = follow heap' p' path' ↔ a = b)

section Map

variable {heap : ν → Object (Option ν)} {heap' : μ → Object (Option μ)} {p : Option ν} {φ : ν → μ}

/-- A map that commutes with the fields commutes with the paths. -/
theorem follow_map (hmap : ∀ a, Traversal.Reachable (refs heap) [p] a →
    heap' (φ a) = (heap a).map (Option.map φ)) (path : List Field) :
    follow heap' (p.map φ) path = (follow heap p path).map (Option.map φ) := by
  induction path generalizing p with
  | nil => simp
  | cons f path ih =>
      cases p with
      | none => rfl
      | some a =>
          rw [Option.map_some, follow_some_cons, follow_some_cons, hmap a (.of_mem (by simp)),
            Object.field_map]
          cases hfield : (heap a).field f with
          | none => rfl
          | some q =>
              exact ih fun b hb => hmap b (reachable_of_field hfield hb)

/-- **A map that commutes with the fields, and separates what is not a symbol,
is an isomorphism.** -/
theorem Isomorphic.of_map (hmap : ∀ a, Traversal.Reachable (refs heap) [p] a →
      heap' (φ a) = (heap a).map (Option.map φ))
    (hinj : ∀ a b, Traversal.Reachable (refs heap) [p] a → Traversal.Reachable (refs heap) [p] b →
      φ a = φ b → a = b ∨ ∃ name, (heap a).label = .symbol name) :
    Isomorphic heap p heap' (p.map φ) where
  labels path := by
    rw [follow_map hmap]
    cases hpath : follow heap p path with
    | none => rfl
    | some q =>
        cases q with
        | none => rfl
        | some a => simp [labelOf, hmap a (reachable_of_follow hpath)]
  sharing path path' a b ha hb hsymbol := by
    rw [follow_map hmap, follow_map hmap, ha, hb]
    refine ⟨fun h => ?_, fun h => by rw [h]⟩
    have heq : φ a = φ b := by simpa using h
    rcases hinj a b (reachable_of_follow ha) (reachable_of_follow hb) heq with hab | ⟨name, hname⟩
    · exact hab
    · exact absurd hname (hsymbol name)

end Map

end Lush
