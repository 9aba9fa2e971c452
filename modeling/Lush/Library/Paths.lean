import Lush.Library.Traversal

/-!
# Paths and isomorphic graphs

A node of a graph has a shape and a list of references.  A path is a list of positions in
such lists.  Two graphs are isomorphic when every path leads to the same shape in both,
and two paths lead to the same node in both or in neither (`Isomorphic.of_map`).
-/

namespace Lush.Paths

open Traversal

variable {ν μ S : Type} {shape : ν → S} {children : ν → List (Option ν)} {shape' : μ → S}
  {children' : μ → List (Option μ)} {p : Option ν} {φ : ν → μ}

/-- Where a path leads: `none` where it leaves the graph. -/
def follow (children : ν → List (Option ν)) : Option ν → List ℕ → Option (Option ν)
  | p, [] => some p
  | none, _ :: _ => none
  | some a, i :: path => (children a)[i]?.bind fun q => follow children q path

@[simp] theorem follow_nil (p : Option ν) : follow children p [] = some p := by
  cases p <;> rfl

/-- Two graphs look the same from two references. -/
structure Isomorphic (shape : ν → S) (children : ν → List (Option ν)) (p : Option ν)
    (shape' : μ → S) (children' : μ → List (Option μ)) (p' : Option μ) : Prop where
  shapes : ∀ path, (follow children p path).map (Option.map shape) =
    (follow children' p' path).map (Option.map shape')
  sharing : ∀ path path' a b, follow children p path = some (some a) →
    follow children p path' = some (some b) →
    (follow children' p' path = follow children' p' path' ↔ a = b)

/-- What a path leads to is reachable. -/
theorem reachable_of_follow {path : List ℕ} {a : ν}
    (h : follow children p path = some (some a)) : Reachable children [p] a := by
  induction path generalizing p with
  | nil =>
      rw [follow_nil, Option.some.injEq] at h
      exact .of_mem (by simp [h])
  | cons i path ih =>
      cases p with
      | none => simp [follow] at h
      | some b =>
          obtain ⟨q, hq, hpath⟩ := Option.bind_eq_some_iff.mp h
          have hmem : q ∈ children b := List.mem_of_getElem? hq
          exact ((ih hpath).mono (by simpa using hmem)).of_children

/-- A map that commutes with the references commutes with the paths. -/
theorem follow_map (hmap : ∀ a, Reachable children [p] a →
    children' (φ a) = (children a).map (Option.map φ)) (path : List ℕ) :
    follow children' (p.map φ) path = (follow children p path).map (Option.map φ) := by
  induction path generalizing p with
  | nil => simp
  | cons i path ih =>
      cases p with
      | none => rfl
      | some a =>
          rw [Option.map_some, follow, follow, hmap a (.of_mem (by simp)), List.getElem?_map]
          cases hq : (children a)[i]? with
          | none => rfl
          | some q =>
              have hmem : q ∈ children a := List.mem_of_getElem? hq
              exact ih fun b hb => hmap b (hb.mono (by simpa using hmem)).of_children

/-- **A map that commutes with shapes and references, and separates the nodes, is an
isomorphism.** -/
theorem Isomorphic.of_map (hshape : ∀ a, Reachable children [p] a → shape' (φ a) = shape a)
    (hmap : ∀ a, Reachable children [p] a → children' (φ a) = (children a).map (Option.map φ))
    (hinj : ∀ a b, Reachable children [p] a → Reachable children [p] b → φ a = φ b → a = b) :
    Isomorphic shape children p shape' children' (p.map φ) where
  shapes path := by
    rw [follow_map hmap]
    cases hpath : follow children p path with
    | none => rfl
    | some q =>
        cases q with
        | none => rfl
        | some a => simp [hshape a (reachable_of_follow hpath)]
  sharing path path' a b ha hb := by
    rw [follow_map hmap, follow_map hmap, ha, hb]
    refine ⟨fun h => ?_, fun h => by rw [h]⟩
    have heq : φ a = φ b := by simpa using h
    exact hinj a b (reachable_of_follow ha) (reachable_of_follow hb) heq

end Lush.Paths
