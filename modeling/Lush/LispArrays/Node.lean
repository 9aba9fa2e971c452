import Lush.Basic
import Lush.Arrays.Bounds
import Lush.Arrays.Loop
import Lush.Library.Paths

/-!
# Graphs with Lisp arrays

A Lisp array is an index on a storage of lisp objects.  `sweep` goes through its elements
with the loop over all elements of an index.  What is seen of an array, apart from its
elements, are its dimensions.
-/

namespace Lush.LispArrays

open Arrays Strides

/-- A cons cell, a number, or a Lisp array with the contents of its storage; `ρ` is what
their fields hold.  It makes no difference here which arrays share a storage. -/
inductive Node (ρ : Type)
  | cons (car cdr : ρ)
  | number (x : BitVec 64)
  | array (ind : Index) (data : List ρ)
deriving DecidableEq

variable {ρ ρ' : Type}

/-- The element at a displacement. -/
def elementAt (ind : Index) (data : List ρ) (off : ℤ) : Option ρ :=
  let pos := ind.offset + off
  if 0 ≤ pos then data[pos.toNat]? else none

/-- The elements that the loop visits. -/
def elements (ind : Index) (data : List ρ) : List ρ :=
  if ind.unsized then []
  else ((aloop ind.axes (count ind.axes)).getD []).filterMap (elementAt ind data)

/-- What `sweep` goes through. -/
def Node.children : Node ρ → List ρ
  | .cons car cdr => [car, cdr]
  | .number _ => []
  | .array ind data => elements ind data

/-- The dimensions of an index that has them. -/
def dimensions (ind : Index) : Option (List ℤ) :=
  if ind.unsized then none else some (ind.axes.map Axis.dim)

/-- What can be seen of a node without following its references. -/
inductive Shape
  | cons
  | number (x : BitVec 64)
  | array (dims : Option (List ℤ))
deriving DecidableEq

/-- The shape of a node. -/
def Node.shape : Node ρ → Shape
  | .cons _ _ => .cons
  | .number x => .number x
  | .array ind _ => .array (dimensions ind)

/-- The elements of an array are in its storage. -/
def Node.Legal : Node ρ → Prop
  | .array ind data => Index.Legal data.length ind
  | _ => True

/-- The same node with other references. -/
def Node.map (f : ρ → ρ') : Node ρ → Node ρ'
  | .cons car cdr => .cons (f car) (f cdr)
  | .number x => .number x
  | .array ind data => .array ind (data.map f)

/-- The graph that a heap holds. -/
def refs {ν : Type} (heap : ν → Node (Option ν)) (a : ν) : List (Option ν) := (heap a).children

/-! ## Elements -/

variable {ind : Index} {data : List ρ}

@[simp] theorem elementAt_map (f : ρ → ρ') (off : ℤ) :
    elementAt ind (data.map f) off = (elementAt ind data off).map f := by
  unfold elementAt
  simp only [List.getElem?_map]
  split_ifs <;> rfl

@[simp] theorem elements_map (f : ρ → ρ') :
    elements ind (data.map f) = (elements ind data).map f := by
  unfold elements
  split_ifs
  · rfl
  · rw [List.map_filterMap]
    exact List.filterMap_congr fun off _ => elementAt_map f off

@[simp] theorem children_map (f : ρ → ρ') (o : Node ρ) :
    (o.map f).children = o.children.map f := by
  cases o with
  | cons car cdr => rfl
  | number x => rfl
  | array ind data => exact elements_map f

@[simp] theorem shape_map (f : ρ → ρ') (o : Node ρ) : (o.map f).shape = o.shape := by
  cases o <;> rfl

theorem elementAt_isSome (hinside : Bounded data.length ind) {off : ℤ}
    (hoff : off ∈ offsets ind.axes) : ∃ x, elementAt ind data off = some x := by
  obtain ⟨ks, hks, rfl⟩ := mem_offsets hoff
  obtain ⟨hlo, hhi⟩ := hinside
  have hle := hks.low_le
  have hge := hks.le_high
  have hlt : (ind.offset + displacement ks ind.axes).toNat < data.length := by omega
  refine ⟨data[(ind.offset + displacement ks ind.axes).toNat], ?_⟩
  rw [elementAt, if_pos (by omega), List.getElem?_eq_getElem hlt]

/-- **The elements of an array in row-major order.** -/
theorem map_some_elements (hpos : Positive ind.axes) (hinside : Bounded data.length ind)
    (hsized : ind.unsized = false) :
    (elements ind data).map some = (offsets ind.axes).map (elementAt ind data) := by
  have hsome : ∀ off ∈ offsets ind.axes, ∃ x, elementAt ind data off = some x := fun off hoff =>
    elementAt_isSome hinside hoff
  rw [elements, if_neg (by simp [hsized]), aloop_eq hpos, Option.getD_some]
  generalize offsets ind.axes = offs at hsome
  induction offs with
  | nil => rfl
  | cons off offs ih =>
      obtain ⟨⟨x, hx⟩, hoffs⟩ := List.forall_mem_cons.mp hsome
      rw [List.filterMap_cons_some hx, List.map_cons, List.map_cons, hx, ih hoffs]

theorem length_elements (hpos : Positive ind.axes) (hinside : Bounded data.length ind)
    (hsized : ind.unsized = false) : (elements ind data).length = count ind.axes := by
  have hlen := congrArg List.length (map_some_elements hpos hinside hsized)
  rwa [List.length_map, List.length_map, length_offsets] at hlen

/-! ## Contiguous arrays -/

/-- The index of a new array of some dimensions. -/
def contiguous (dims : List ℤ) : Index := ⟨0, false, 0, rowMajor dims⟩

theorem elements_contiguous {dims : List ℤ} (hpos : ∀ d ∈ dims, 0 < d)
    (hlen : (data.length : ℤ) = dims.prod) : elements (contiguous dims) data = data := by
  have hcount : count (rowMajor dims) = data.length := by
    have hprod := count_rowMajor hpos
    omega
  have hinside : Bounded data.length (contiguous dims) := by
    show 0 ≤ 0 + low (rowMajor dims) ∧ 0 + high (rowMajor dims) < (data.length : ℤ)
    rw [low_rowMajor hpos, high_rowMajor hpos]
    omega
  apply List.map_injective_iff.mpr (Option.some_injective ρ)
  rw [map_some_elements (positive_rowMajor hpos) hinside rfl, contiguous, offsets_rowMajor hpos,
    hcount, List.map_map]
  apply List.ext_getElem
  · simp
  · intro i hi hi'
    have hlt : i < data.length := by simpa using hi
    simp [elementAt, hlt]

end Lush.LispArrays
