import Lush.Basic
import Lush.Library.Strides

/-!
# Indexes

An index is a view of a storage: an offset, and for every dimension its size and its
modulus.  `index_dimension` lays the elements of an index out one after the other, and
makes the storage larger when it has to.  The other functions edit an index in place or
make a new one on the same storage.  Several indexes may share a storage.
-/

namespace Lush.Arrays

open Strides

/-- `struct index`: `axes` are the first `ndim` elements of `dim` and `mod`. -/
structure Index where
  st : ℕ
  unsized : Bool
  offset : ℤ
  axes : List Axis
deriving DecidableEq

/-- `MAXDIMS`. -/
def maxDims : ℕ := 11

/-- The sizes of the storages, where they have one, and the indexes. -/
structure State where
  storages : List (Option ℤ)
  indexes : List Index
deriving DecidableEq

/-! ## Creation -/

/-- `new_index`. -/
def newIndex (st : ℕ) : Index := ⟨st, true, 0, []⟩

/-- The loop that computes the size: the product of the dimensions that are given, and
whether there is one that is not. -/
def totalSize (size : ℤ) (unkn : Bool) : List ℤ → Option (ℤ × Bool)
  | [] => some (size, unkn)
  | d :: dims =>
      if 0 < d then totalSize (size * d) unkn dims
      else if d = 0 ∧ unkn = false then totalSize size true dims
      else none

/-- The size that the storage has in the end: `storage_malloc` and `storage_realloc`. -/
def enlarge (stSize : Option ℤ) (size : ℤ) (unkn : Bool) : Option ℤ :=
  match stSize with
  | none => if unkn then none else some size
  | some s => some (max s size)

/-- `index_dimension`: the new size of the storage, and the index. -/
def indexDimension (stSize : Option ℤ) (ind : Index) (dims : List ℤ) : Option (ℤ × Index) :=
  if ind.unsized = false ∨ maxDims < dims.length then none
  else do
    let (size, unkn) ← totalSize 1 false dims
    let stSize ← enlarge stSize size unkn
    let dims := dims.map fun d => if d = 0 then stSize / size else d
    some (stSize, { ind with unsized := false, axes := rowMajor dims })

/-- `index_undimension`. -/
def indexUndimension (ind : Index) : Index := { ind with unsized := true, axes := [] }

/-- The part of a dimension that goes into a subindex.  One of size `0` is collapsed. -/
structure Range where
  dim : ℤ
  start : ℤ

/-- The range fits in the dimension, as `index_from_index` has it. -/
def Range.Fits (r : Range) (a : Axis) : Prop :=
  0 ≤ r.dim ∧ 0 ≤ r.start ∧ r.dim + r.start ≤ a.dim

instance (r : Range) (a : Axis) : Decidable (r.Fits a) :=
  inferInstanceAs (Decidable (_ ∧ _))

/-- The index that consists of the ranges. -/
def subregion (base : Index) (ranges : List Range) : Index :=
  let pieces := ranges.zip base.axes
  { base with
    offset := base.offset + (pieces.map fun p => p.1.start * p.2.mod).sum
    axes := (pieces.filter fun p => 0 < p.1.dim).map fun p => ⟨p.1.dim, p.2.mod⟩ }

/-- `index_from_index`, with a range for every dimension of the base. -/
def indexFromIndex (base : Index) (ranges : List Range) : Option Index :=
  if base.unsized = true ∨ ranges.length ≠ base.axes.length then none
  else if ∀ p ∈ ranges.zip base.axes, p.1.Fits p.2 then some (subregion base ranges)
  else none

/-- The ranges of `new-index` on an index: without a start list, and after its end, the
coordinates are `0`. -/
def rangesOf (dims start : List ℤ) : List Range :=
  dims.mapIdx fun i dim => ⟨dim, start.getD i 0⟩

/-- What `subindex` gets for a dimension. -/
inductive Subscript
  | coordinate (k : ℤ)
  | between (first last : ℤ)
  | all

/-- The range of a subscript. -/
def Subscript.range (a : Axis) : Subscript → Range
  | .coordinate k => ⟨0, k⟩
  | .between first last => ⟨1 + last - first, first⟩
  | .all => ⟨a.dim, 0⟩

/-- The ranges of the subscripts. -/
def subscriptRanges (subscripts : List Subscript) (base : Index) : List Range :=
  List.zipWith (fun s a => s.range a) subscripts base.axes

/-- `xsubindex`. -/
def xsubindex (base : Index) (subscripts : List Subscript) : Option Index :=
  if subscripts.length ≠ base.axes.length then none
  else indexFromIndex base (subscriptRanges subscripts base)

/-! ## Functions that edit an index -/

/-- `xindex_unfold`. -/
def xindexUnfold (d : ℕ) (sz st : ℤ) (ind : Index) : Option Index := do
  let a ← ind.axes[d]?
  let s := 1 + (a.dim - sz).tdiv st
  if sz < 1 ∨ st < 1 then none
  else if s ≤ 0 ∨ a.dim ≠ st * (s - 1) + sz then none
  else if maxDims ≤ ind.axes.length + 1 then none
  else some { ind with axes := ind.axes.set d ⟨s, a.mod * st⟩ ++ [⟨sz, a.mod⟩] }

/-- `xindex_diagonal`. -/
def xindexDiagonal (d : ℕ) (ind : Index) : Option Index := do
  let m := ind.axes.length - d
  let first ← ind.axes[m]?
  if d < 2 ∨ ind.axes.length < d then none
  else if ∀ a ∈ ind.axes.drop m, a.dim = first.dim then
    some { ind with
      axes := ind.axes.take m ++ [⟨first.dim, ((ind.axes.drop m).map Axis.mod).sum⟩] }
  else none

/-- `xindex_narrow`. -/
def xindexNarrow (d : ℕ) (sz st : ℤ) (ind : Index) : Option Index := do
  let a ← ind.axes[d]?
  if sz < 1 ∨ st < 0 then none
  else if a.dim < st + sz then none
  else some { ind with
    axes := ind.axes.set d ⟨sz, a.mod⟩
    offset := ind.offset + st * a.mod }

/-- `xindex_select`. -/
def xindexSelect (d : ℕ) (x : ℤ) (ind : Index) : Option Index := do
  let a ← ind.axes[d]?
  if x < 0 ∨ a.dim ≤ x then none
  else some { ind with
    axes := ind.axes.eraseIdx d
    offset := ind.offset + x * a.mod }

/-- `xindex_transpose`, and `xindex_transclone` for the new index. -/
def xindexTranspose (table : List ℕ) (ind : Index) : Option Index :=
  if table.length = ind.axes.length ∧ (∀ j ∈ table, j < table.length) ∧ table.Nodup then
    some { ind with axes := table.filterMap fun j => ind.axes[j]? }
  else none

/-- `xindex_transpose2`. -/
def xindexTranspose2 (d1 d2 : ℕ) (ind : Index) : Option Index := do
  let a1 ← ind.axes[d1]?
  let a2 ← ind.axes[d2]?
  if d1 = d2 then none
  else some { ind with axes := (ind.axes.set d1 a2).set d2 a1 }

/-- The bounds that `index_check_size` computes, for the dimensions from the first. -/
def sizeBounds (sizeMin sizeMax : ℤ) : List Axis → ℤ × ℤ
  | [] => (sizeMin, sizeMax)
  | a :: axes =>
      if a.mod < 0 then sizeBounds (sizeMin + (a.dim - 1) * a.mod) sizeMax axes
      else sizeBounds sizeMin (sizeMax + (a.dim - 1) * a.mod) axes

/-- `index_check_size`: the index is larger than its storage. -/
def indexCheckSize (stSize : ℤ) (ind : Index) : Bool :=
  if ind.offset < 0 then true
  else
    let bounds := sizeBounds ind.offset ind.offset ind.axes
    !(decide (0 ≤ bounds.1) && decide (bounds.2 < stSize))

/-- What is patched stays, unless the index is larger than its storage then. -/
def checked (stSize : ℤ) (ind : Index) : Option Index :=
  if indexCheckSize stSize ind then none else some ind

/-- `xindex_change_dim`. -/
def xindexChangeDim (stSize : ℤ) (d : ℕ) (x : ℤ) (ind : Index) : Option Index := do
  let a ← ind.axes[d]?
  if x ≤ 0 then none
  else checked stSize { ind with axes := ind.axes.set d { a with dim := x } }

/-- `xindex_change_mod`. -/
def xindexChangeMod (stSize : ℤ) (d : ℕ) (x : ℤ) (ind : Index) : Option Index := do
  let a ← ind.axes[d]?
  checked stSize { ind with axes := ind.axes.set d { a with mod := x } }

/-- `xindex_change_offset`. -/
def xindexChangeOffset (stSize : ℤ) (x : ℤ) (ind : Index) : Option Index :=
  checked stSize { ind with offset := x }

/-! ## Operations -/

/-- An edit of a sized index that leaves its storage as it is. -/
inductive Edit
  | unfold (d : ℕ) (sz st : ℤ)
  | diagonal (d : ℕ)
  | narrow (d : ℕ) (sz st : ℤ)
  | select (d : ℕ) (x : ℤ)
  | transpose (table : List ℕ)
  | transpose2 (d1 d2 : ℕ)
  | changeDim (d : ℕ) (x : ℤ)
  | changeMod (d : ℕ) (x : ℤ)
  | changeOffset (x : ℤ)

/-- The index after an edit. -/
def Edit.apply (stSize : ℤ) (ind : Index) : Edit → Option Index
  | .unfold d sz st => xindexUnfold d sz st ind
  | .diagonal d => xindexDiagonal d ind
  | .narrow d sz st => xindexNarrow d sz st ind
  | .select d x => xindexSelect d x ind
  | .transpose table => xindexTranspose table ind
  | .transpose2 d1 d2 => xindexTranspose2 d1 d2 ind
  | .changeDim d x => xindexChangeDim stSize d x ind
  | .changeMod d x => xindexChangeMod stSize d x ind
  | .changeOffset x => xindexChangeOffset stSize x ind

/-- What a program does with matrices.  An index is named by its number, and an argument
that the code refuses as negative is not among the operations. -/
inductive Operation
  | matrix (dims : List ℤ)
  | newIndexOnStorage (st : ℕ) (dims : List ℤ)
  | newIndexOnIndex (i : ℕ) (dims start : List ℤ)
  | subindex (i : ℕ) (subscripts : List Subscript)
  | edit (i : ℕ) (e : Edit)
  | clone (i : ℕ)
  | transclone (i : ℕ) (table : List ℕ)
  | undim (i : ℕ)
  | redim (i : ℕ) (dims : List ℤ)

/-- An index, when it has dimensions. -/
def State.sized (s : State) (i : ℕ) : Option Index := do
  let ind ← s.indexes[i]?
  if ind.unsized then none else some ind

/-- One more index. -/
def State.push (s : State) (ind : Index) : State := { s with indexes := s.indexes ++ [ind] }

/-- An index is edited. -/
def State.set (s : State) (i : ℕ) (ind : Index) : State :=
  { s with indexes := s.indexes.set i ind }

/-- `index_dimension` with the storage of the index. -/
def State.dimension (s : State) (ind : Index) (dims : List ℤ) : Option (State × Index) := do
  let stSize ← s.storages[ind.st]?
  let (size, sized) ← indexDimension stSize ind dims
  some ({ s with storages := s.storages.set ind.st (some size) }, sized)

/-- One operation.  There is no next state where it signals an error. -/
def Operation.step (s : State) : Operation → Option State
  | .matrix dims => do
      let s := { s with storages := s.storages ++ [none] }
      let (s, ind) ← s.dimension (newIndex (s.storages.length - 1)) dims
      some (s.push ind)
  | .newIndexOnStorage st dims => do
      let (s, ind) ← s.dimension (newIndex st) dims
      some (s.push ind)
  | .newIndexOnIndex i dims start => do
      let base ← s.indexes[i]?
      if base.axes.length < start.length then none
      else some (s.push (← indexFromIndex base (rangesOf dims start)))
  | .subindex i subscripts => do
      let base ← s.sized i
      some (s.push (← xsubindex base subscripts))
  | .edit i e => do
      let ind ← s.sized i
      let size ← s.storages[ind.st]?.join
      some (s.set i (← e.apply size ind))
  | .clone i => do
      let ind ← s.sized i
      some (s.push ind)
  | .transclone i table => do
      let ind ← s.sized i
      some (s.push (← xindexTranspose table ind))
  | .undim i => do
      let ind ← s.indexes[i]?
      some (s.set i (indexUndimension ind))
  | .redim i dims => do
      let ind ← s.indexes[i]?
      let ind := if ind.unsized then ind else indexUndimension ind
      let (s, ind) ← s.dimension ind dims
      some (s.set i ind)

/-- Nothing has been allocated yet. -/
def State.initial : State := ⟨[], []⟩

end Lush.Arrays
