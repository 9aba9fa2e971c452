import Lush.Arrays.Shape
import Lush.Ints
import Lush.Library.Rollback

/-!
# Index operations that fail

The functions that edit an index in place write its fields one after another, and signal
their errors before, between or after the writes.  Here they are programs that change the
fields of `struct index`, so that what an error leaves behind can be told.
-/

namespace Lush.Arrays.InPlace

open Rollback Strides

/-- An argument of a function, or a part of one. -/
inductive Arg
  | nil
  | cons (car cdr : Arg)
  | number (x : ℤ)
  | index
  | other

/-- `struct index`. -/
structure Fields where
  unsized : Bool
  ndim : ℤ
  offset : ℤ
  dim : ℕ → ℤ
  mod : ℕ → ℤ

/-- What the functions read of `struct storage`: whether it has a size, whether it is in
memory, and its size. -/
structure Storage where
  unsized : Bool
  ram : Bool
  size : ℤ

/-- The index and its storage. -/
structure Memory where
  ind : Fields
  st : Storage

abbrev Prog := Program String Memory

/-! ## Arguments -/

/-- `ARG_NUMBER`. -/
def argNumber (args : List Arg) (n : ℕ) : Prog Unit :=
  errorIf (args.length ≠ n) (toString n ++ " arguments were expected")

/-- `AINTEGER`. -/
def aInteger (args : List Arg) (i : ℕ) : Prog ℤ :=
  match args[i - 1]? with
  | some (.number x) => pure x
  | _ => throw "not a real number"

/-- `AINDEX`. -/
def aIndex (args : List Arg) (i : ℕ) : Prog Unit :=
  match args[i - 1]? with
  | some .index => pure ()
  | _ => throw "not an index"

/-- `ALIST`. -/
def aList (args : List Arg) (i : ℕ) : Prog Arg :=
  match args[i - 1]? with
  | some .nil => pure .nil
  | some (.cons car cdr) => pure (.cons car cdr)
  | _ => throw "not a list"

/-- `check_sized_index`. -/
def checkSizedIndex (args : List Arg) : Prog Unit := do
  aIndex args 1
  let m ← get
  errorIf (m.ind.unsized = true) "unsized index"

/-- `index_parse_dimlist`, after `nd` dimensions. -/
def indexParseDimlist (nd : ℕ) : Arg → Prog (List ℤ)
  | .nil => pure []
  | .cons (.number x) l => do
      errorIf (maxDims ≤ nd) "Too many dimensions"
      let dims ← indexParseDimlist (nd + 1) l
      pure (x :: dims)
  | _ => throw "illegal dimension list"

/-- A field of the index is written. -/
def write (f : Fields → Fields) : Prog Unit := modify fun m => { m with ind := f m.ind }

/-! ## The dimensions of an index -/

/-- The loop that computes the size: the number of dimensions that are not given is
counted in `unkn`. -/
def sizeLoop (size : ℤ) (unkn : Bool) : List ℤ → Prog (ℤ × Bool)
  | [] => pure (size, unkn)
  | d :: dims =>
      if 0 < d then sizeLoop (size * d) unkn dims
      else if d = 0 then do
        errorIf (unkn = true) "more than one unspecified dimension"
        sizeLoop size true dims
      else throw "illegal dimension"

/-- `storage_malloc`.  `alloc` tells whether there is memory for so many elements. -/
def storageMalloc (alloc : ℤ → Bool) (size : ℤ) : Prog Unit := do
  errorIf (size ≤ 0) "Illegal size"
  let m ← get
  errorIf (m.st.unsized = false) "An unsized storage is required"
  errorIf (alloc size = false) "not enough memory"
  modify fun m => { m with st := ⟨false, true, size⟩ }

/-- `storage_realloc`. -/
def storageRealloc (alloc : ℤ → Bool) (size : ℤ) : Prog Unit := do
  errorIf (size ≤ 0) "Illegal size"
  let m ← get
  errorIf (m.st.ram = false) "Only a ram based storage can be enlarged"
  errorIf (size < m.st.size) "Attempt to reduce the size of a storage"
  errorIf (alloc size = false) "not enough memory"
  modify fun m => { m with st := { m.st with size := size } }

/-- The loop that stores the dimensions and the moduli, from the last one. -/
def layout (dims : List ℤ) : ℕ → ℤ → Fields → Fields
  | 0, _, ind => ind
  | i + 1, size, ind =>
      layout dims i (size * dims.getD i 0)
        { ind with
          dim := Function.update ind.dim i (dims.getD i 0)
          mod := Function.update ind.mod i size }

/-- The part of `index_dimension` that makes the storage ready. -/
def makeReady (alloc : ℤ → Bool) (size : ℤ) (unkn : Bool) : Prog Unit := do
  let m ← get
  onlyIf (m.st.unsized = true) do
    errorIf (unkn = true) "Cannot compute storage size"
    storageMalloc alloc size
  let m ← get
  onlyIf (m.st.size < size) (storageRealloc alloc size)

/-- `index_dimension`. -/
def indexDimension (alloc : ℤ → Bool) (dims : List ℤ) : Prog Unit := do
  let m ← get
  errorIf (m.ind.unsized = false) "Unsized index required"
  errorIf (maxDims < dims.length) "Illegal number of dimensions"
  let total ← sizeLoop 1 false dims
  makeReady alloc total.1 total.2
  let m ← get
  let dims := dims.map fun d => if d = 0 then m.st.size.tdiv total.1 else d
  write (layout dims dims.length 1)
  write fun ind => { ind with unsized := false }
  write fun ind => { ind with ndim := dims.length }

/-- `index_undimension`. -/
def indexUndimension : Prog Unit :=
  write fun ind => { ind with unsized := true, ndim := -1 }

/-- The arguments of `xindex_redim`. -/
def redimArgs (args : List Arg) : Prog (List ℤ) := do
  argNumber args 2
  aIndex args 1
  let l ← aList args 2
  indexParseDimlist 0 l

/-- `xindex_redim`. -/
def xindexRedim (alloc : ℤ → Bool) (args : List Arg) : Prog Unit := do
  let dims ← redimArgs args
  let m ← get
  onlyIf (m.ind.unsized = false) indexUndimension
  indexDimension alloc dims

/-! ## Operations that check first -/

/-- `xindex_unfold`. -/
def xindexUnfold (args : List Arg) : Prog Unit := do
  argNumber args 4
  checkSizedIndex args
  let d ← aInteger args 2
  let sz ← aInteger args 3
  let st ← aInteger args 4
  let d := intCast d
  let m ← get
  errorIf (d < 0 ∨ m.ind.ndim ≤ d ∨ sz < 1 ∨ st < 1) "illegal parameters"
  let d := d.toNat
  let s := 1 + (m.ind.dim d - sz).tdiv st
  errorIf (s ≤ 0 ∨ m.ind.dim d ≠ st * (s - 1) + sz)
    "Index dimension does not match size and step"
  let n := m.ind.ndim.toNat
  errorIf (maxDims ≤ n + 1) "Too many number of dimensions"
  write fun ind => { ind with ndim := n + 1 }
  write fun ind => { ind with dim := Function.update ind.dim n sz }
  write fun ind => { ind with mod := Function.update ind.mod n (ind.mod d) }
  write fun ind => { ind with dim := Function.update ind.dim d s }
  write fun ind => { ind with mod := Function.update ind.mod d (ind.mod d * st) }

/-- `xindex_diagonal`. -/
def xindexDiagonal (args : List Arg) : Prog Unit := do
  argNumber args 2
  checkSizedIndex args
  let d ← aInteger args 2
  let d := intCast d
  let m ← get
  errorIf (d < 2 ∨ m.ind.ndim < d) "illegal parameters"
  let first := (m.ind.ndim - d).toNat
  let others := (List.range' 1 (d.toNat - 1)).map (first + ·)
  errorIf (∃ i ∈ others, m.ind.dim i ≠ m.ind.dim first)
    "The last dimensions should have the same size"
  let n := others.foldl (fun n i => n + m.ind.mod i) (m.ind.mod first)
  write fun ind => { ind with ndim := first + 1 }
  write fun ind => { ind with mod := Function.update ind.mod first n }

/-- `xindex_narrow`. -/
def xindexNarrow (args : List Arg) : Prog Unit := do
  argNumber args 4
  checkSizedIndex args
  let d ← aInteger args 2
  let sz ← aInteger args 3
  let st ← aInteger args 4
  let d := intCast d
  let m ← get
  errorIf (d < 0 ∨ m.ind.ndim ≤ d ∨ sz < 1 ∨ st < 0) "illegal parameters"
  let d := d.toNat
  errorIf (m.ind.dim d < st + sz) "specified interval is too large"
  write fun ind => { ind with dim := Function.update ind.dim d sz }
  write fun ind => { ind with offset := ind.offset + st * ind.mod d }

/-- The loop that moves the dimensions after `d` forward. -/
def shiftLoop : ℕ → ℕ → Fields → Fields
  | 0, _, ind => ind
  | n + 1, d, ind =>
      shiftLoop n (d + 1)
        { ind with
          dim := Function.update ind.dim d (ind.dim (d + 1))
          mod := Function.update ind.mod d (ind.mod (d + 1)) }

/-- `xindex_select`. -/
def xindexSelect (args : List Arg) : Prog Unit := do
  argNumber args 3
  checkSizedIndex args
  let d ← aInteger args 2
  let x ← aInteger args 3
  let d := intCast d
  let m ← get
  errorIf (d < 0 ∨ m.ind.ndim ≤ d ∨ x < 0) "illegal parameters"
  let d := d.toNat
  errorIf (m.ind.dim d ≤ x) "specified subscript is too large"
  write fun ind => { ind with offset := ind.offset + x * ind.mod d }
  write fun ind => { ind with ndim := ind.ndim - 1 }
  write (shiftLoop (m.ind.ndim.toNat - 1 - d) d)

/-- The loop that tests a permutation. -/
def badTable (nd : ℤ) : List ℤ → List ℤ → Bool
  | _, [] => false
  | seen, t :: table =>
      decide (t < 0) || decide (nd ≤ t) || seen.contains t || badTable nd (t :: seen) table

/-- The elements of an array are permuted, by way of a copy. -/
def permute (table : List ℤ) (tmp : ℕ → ℤ) : ℕ → ℤ := fun i =>
  match table[i]? with
  | some t => tmp t.toNat
  | none => tmp i

/-- `xindex_transpose`. -/
def xindexTranspose (args : List Arg) : Prog Unit := do
  argNumber args 2
  checkSizedIndex args
  let l ← aList args 2
  let table ← indexParseDimlist 0 l
  let m ← get
  errorIf ((table.length : ℤ) ≠ m.ind.ndim) "Permutation list is too short or too long"
  errorIf (badTable table.length [] table = true) "Bad permutation list"
  write fun ind => { ind with dim := permute table ind.dim }
  write fun ind => { ind with mod := permute table ind.mod }

/-- `xindex_transpose2`. -/
def xindexTranspose2 (args : List Arg) : Prog Unit := do
  argNumber args 3
  checkSizedIndex args
  let d1 ← aInteger args 2
  let d2 ← aInteger args 3
  let d1 := intCast d1
  let d2 := intCast d2
  let m ← get
  errorIf (d1 < 0 ∨ d2 < 0 ∨ m.ind.ndim ≤ d1 ∨ m.ind.ndim ≤ d2 ∨ d1 = d2) "Illegal arguments"
  let d1 := d1.toNat
  let d2 := d2.toNat
  write fun ind => { ind with dim := Function.update ind.dim d1 (m.ind.dim d2) }
  write fun ind => { ind with dim := Function.update ind.dim d2 (m.ind.dim d1) }
  write fun ind => { ind with mod := Function.update ind.mod d1 (m.ind.mod d2) }
  write fun ind => { ind with mod := Function.update ind.mod d2 (m.ind.mod d1) }

/-! ## Operations that are undone -/

/-- The dimensions that an index has. -/
def Fields.axes (ind : Fields) : List Axis :=
  (List.range ind.ndim.toNat).map fun i => ⟨ind.dim i, ind.mod i⟩

/-- The index as a view of a storage. -/
def Fields.view (ind : Fields) : Index := ⟨0, ind.unsized, ind.offset, ind.axes⟩

/-- A field is written, and written back if the index is larger than its storage then. -/
def patch (f g : Fields → Fields) : Prog Unit := do
  write f
  let m ← get
  onlyIf (indexCheckSize m.st.size m.ind.view = true) do
    write g
    throw "Index is larger than its storage"

/-- `xindex_change_dim`. -/
def xindexChangeDim (args : List Arg) : Prog Unit := do
  argNumber args 3
  checkSizedIndex args
  let d ← aInteger args 2
  let x ← aInteger args 3
  let d := intCast d
  let m ← get
  errorIf (d < 0 ∨ m.ind.ndim ≤ d ∨ x ≤ 0) "illegal parameters"
  let d := d.toNat
  patch (fun ind => { ind with dim := Function.update ind.dim d x })
    fun ind => { ind with dim := Function.update ind.dim d (m.ind.dim d) }

/-- `xindex_change_mod`. -/
def xindexChangeMod (args : List Arg) : Prog Unit := do
  argNumber args 3
  checkSizedIndex args
  let d ← aInteger args 2
  let x ← aInteger args 3
  let d := intCast d
  let m ← get
  errorIf (d < 0 ∨ m.ind.ndim ≤ d) "illegal parameters"
  let d := d.toNat
  patch (fun ind => { ind with mod := Function.update ind.mod d x })
    fun ind => { ind with mod := Function.update ind.mod d (m.ind.mod d) }

/-- `xindex_change_offset`. -/
def xindexChangeOffset (args : List Arg) : Prog Unit := do
  argNumber args 2
  checkSizedIndex args
  let x ← aInteger args 2
  let m ← get
  patch (fun ind => { ind with offset := x })
    fun ind => { ind with offset := m.ind.offset }

/-! ## What the parts leave as it is -/

variable {args : List Arg} {alloc : ℤ → Bool} {dims : List ℤ} {m : Memory}

theorem reads_argNumber (args : List Arg) (n : ℕ) : Reads (argNumber args n) := reads_errorIf _ _

theorem reads_aInteger (args : List Arg) (i : ℕ) : Reads (aInteger args i) := by
  unfold aInteger
  split
  · exact reads_pure _
  · exact reads_throw _

theorem reads_aIndex (args : List Arg) (i : ℕ) : Reads (aIndex args i) := by
  unfold aIndex
  split
  · exact reads_pure _
  · exact reads_throw _

theorem reads_aList (args : List Arg) (i : ℕ) : Reads (aList args i) := by
  unfold aList
  split
  · exact reads_pure _
  · exact reads_pure _
  · exact reads_throw _

theorem reads_checkSizedIndex (args : List Arg) : Reads (checkSizedIndex args) :=
  (reads_aIndex args 1).bind fun _ => reads_get.bind fun _ => reads_errorIf _ _

theorem reads_indexParseDimlist (nd : ℕ) (l : Arg) : Reads (indexParseDimlist nd l) := by
  induction nd, l using indexParseDimlist.induct with
  | case1 nd => exact reads_pure _
  | case2 nd x l ih =>
      exact (reads_errorIf _ _).bind fun _ => ih.bind fun _ => reads_pure _
  | case3 nd l hnil hcons =>
      rw [indexParseDimlist]
      · exact reads_throw _
      · exact hnil
      · exact hcons

theorem reads_redimArgs (args : List Arg) : Reads (redimArgs args) :=
  (reads_argNumber args 2).bind fun _ => (reads_aIndex args 1).bind fun _ =>
    (reads_aList args 2).bind fun l => reads_indexParseDimlist 0 l

theorem reads_sizeLoop (size : ℤ) (unkn : Bool) (dims : List ℤ) :
    Reads (sizeLoop size unkn dims) := by
  induction dims generalizing size unkn with
  | nil => exact reads_pure _
  | cons d dims ih =>
      unfold sizeLoop
      split_ifs
      · exact ih _ _
      · exact (reads_errorIf _ _).bind fun _ => ih _ _
      · exact reads_throw _

theorem frames_storageMalloc (alloc : ℤ → Bool) (size : ℤ) :
    Frames Memory.ind (storageMalloc alloc size) :=
  (reads_errorIf _ _).frames.bind fun _ => reads_get.frames.bind fun _ =>
    (reads_errorIf _ _).frames.bind fun _ => (reads_errorIf _ _).frames.bind fun _ =>
      frames_modify fun _ => rfl

theorem frames_storageRealloc (alloc : ℤ → Bool) (size : ℤ) :
    Frames Memory.ind (storageRealloc alloc size) :=
  (reads_errorIf _ _).frames.bind fun _ => reads_get.frames.bind fun _ =>
    (reads_errorIf _ _).frames.bind fun _ => (reads_errorIf _ _).frames.bind fun _ =>
      (reads_errorIf _ _).frames.bind fun _ => frames_modify fun _ => rfl

theorem frames_makeReady (alloc : ℤ → Bool) (size : ℤ) (unkn : Bool) :
    Frames Memory.ind (makeReady alloc size unkn) :=
  have hmalloc : Frames Memory.ind (do
      errorIf (unkn = true) "Cannot compute storage size"
      storageMalloc alloc size : Prog Unit) :=
    (reads_errorIf _ _).frames.bind fun _ => frames_storageMalloc _ _
  reads_get.frames.bind fun _ => hmalloc.onlyIf.bind fun _ => reads_get.frames.bind fun _ =>
    (frames_storageRealloc _ _).onlyIf

theorem total_write (f : Fields → Fields) : Total (write f) := fun m => ⟨(), { m with ind := f m.ind }, rfl⟩

/-- The storage is made ready before the fields of the index are written. -/
theorem atomic_indexDimension (alloc : ℤ → Bool) (dims : List ℤ) :
    Atomic Memory.ind (indexDimension alloc dims) := by
  refine reads_get.frames.bind_atomic fun m => ?_
  refine (reads_errorIf _ _).frames.bind_atomic fun _ => ?_
  refine (reads_errorIf _ _).frames.bind_atomic fun _ => ?_
  refine (reads_sizeLoop _ _ _).frames.bind_atomic fun total => ?_
  refine (frames_makeReady _ _ _).bind_atomic fun _ => ?_
  refine reads_get.frames.bind_atomic fun m => ?_
  exact ((total_write _).bind fun _ => (total_write _).bind fun _ => total_write _).atomic

/-! ## The operations that check first are atomic -/

theorem atomic_xindexUnfold (args : List Arg) : Atomic Memory.ind (xindexUnfold args) := by
  refine (reads_argNumber _ _).frames.bind_atomic fun _ => ?_
  refine (reads_checkSizedIndex _).frames.bind_atomic fun _ => ?_
  refine (reads_aInteger _ _).frames.bind_atomic fun d => ?_
  refine (reads_aInteger _ _).frames.bind_atomic fun sz => ?_
  refine (reads_aInteger _ _).frames.bind_atomic fun st => ?_
  refine reads_get.frames.bind_atomic fun m => ?_
  refine (reads_errorIf _ _).frames.bind_atomic fun _ => ?_
  refine (reads_errorIf _ _).frames.bind_atomic fun _ => ?_
  refine (reads_errorIf _ _).frames.bind_atomic fun _ => ?_
  exact ((total_write _).bind fun _ => (total_write _).bind fun _ => (total_write _).bind fun _ =>
    (total_write _).bind fun _ => total_write _).atomic

theorem atomic_xindexDiagonal (args : List Arg) : Atomic Memory.ind (xindexDiagonal args) := by
  refine (reads_argNumber _ _).frames.bind_atomic fun _ => ?_
  refine (reads_checkSizedIndex _).frames.bind_atomic fun _ => ?_
  refine (reads_aInteger _ _).frames.bind_atomic fun d => ?_
  refine reads_get.frames.bind_atomic fun m => ?_
  refine (reads_errorIf _ _).frames.bind_atomic fun _ => ?_
  refine (reads_errorIf _ _).frames.bind_atomic fun _ => ?_
  exact ((total_write _).bind fun _ => total_write _).atomic

theorem atomic_xindexNarrow (args : List Arg) : Atomic Memory.ind (xindexNarrow args) := by
  refine (reads_argNumber _ _).frames.bind_atomic fun _ => ?_
  refine (reads_checkSizedIndex _).frames.bind_atomic fun _ => ?_
  refine (reads_aInteger _ _).frames.bind_atomic fun d => ?_
  refine (reads_aInteger _ _).frames.bind_atomic fun sz => ?_
  refine (reads_aInteger _ _).frames.bind_atomic fun st => ?_
  refine reads_get.frames.bind_atomic fun m => ?_
  refine (reads_errorIf _ _).frames.bind_atomic fun _ => ?_
  refine (reads_errorIf _ _).frames.bind_atomic fun _ => ?_
  exact ((total_write _).bind fun _ => total_write _).atomic

theorem atomic_xindexSelect (args : List Arg) : Atomic Memory.ind (xindexSelect args) := by
  refine (reads_argNumber _ _).frames.bind_atomic fun _ => ?_
  refine (reads_checkSizedIndex _).frames.bind_atomic fun _ => ?_
  refine (reads_aInteger _ _).frames.bind_atomic fun d => ?_
  refine (reads_aInteger _ _).frames.bind_atomic fun x => ?_
  refine reads_get.frames.bind_atomic fun m => ?_
  refine (reads_errorIf _ _).frames.bind_atomic fun _ => ?_
  refine (reads_errorIf _ _).frames.bind_atomic fun _ => ?_
  exact ((total_write _).bind fun _ => (total_write _).bind fun _ => total_write _).atomic

theorem atomic_xindexTranspose (args : List Arg) : Atomic Memory.ind (xindexTranspose args) := by
  refine (reads_argNumber _ _).frames.bind_atomic fun _ => ?_
  refine (reads_checkSizedIndex _).frames.bind_atomic fun _ => ?_
  refine (reads_aList _ _).frames.bind_atomic fun l => ?_
  refine (reads_indexParseDimlist _ _).frames.bind_atomic fun table => ?_
  refine reads_get.frames.bind_atomic fun m => ?_
  refine (reads_errorIf _ _).frames.bind_atomic fun _ => ?_
  refine (reads_errorIf _ _).frames.bind_atomic fun _ => ?_
  exact ((total_write _).bind fun _ => total_write _).atomic

theorem atomic_xindexTranspose2 (args : List Arg) : Atomic Memory.ind (xindexTranspose2 args) := by
  refine (reads_argNumber _ _).frames.bind_atomic fun _ => ?_
  refine (reads_checkSizedIndex _).frames.bind_atomic fun _ => ?_
  refine (reads_aInteger _ _).frames.bind_atomic fun d1 => ?_
  refine (reads_aInteger _ _).frames.bind_atomic fun d2 => ?_
  refine reads_get.frames.bind_atomic fun m => ?_
  refine (reads_errorIf _ _).frames.bind_atomic fun _ => ?_
  exact ((total_write _).bind fun _ => (total_write _).bind fun _ => (total_write _).bind fun _ =>
    total_write _).atomic

/-! ## The operations that are undone are atomic -/

/-- What is written back is what was there. -/
theorem atomicAt_patch {f g : Fields → Fields} (h : g (f m.ind) = m.ind) :
    AtomicAt Memory.ind (patch f g) m := by
  intro e m' hrun
  have hwrite : result (write f) m = (.ok (), { m with ind := f m.ind }) := rfl
  have hget : result (get : Prog Memory) { m with ind := f m.ind } =
      (.ok { m with ind := f m.ind }, { m with ind := f m.ind }) := rfl
  unfold patch at hrun
  rw [result_bind_ok hwrite, result_bind_ok hget, onlyIf] at hrun
  split_ifs at hrun with hlarge
  · have hback : result (write g >>= fun _ => throw "Index is larger than its storage" : Prog Unit)
        { m with ind := f m.ind } =
          (.error "Index is larger than its storage", { m with ind := g (f m.ind) }) := rfl
    rw [hback] at hrun
    cases hrun
    exact h
  · cases hrun

theorem atomic_xindexChangeDim (args : List Arg) : Atomic Memory.ind (xindexChangeDim args) := by
  intro m
  refine (reads_argNumber _ _).bind_atomicAt fun _ => ?_
  refine (reads_checkSizedIndex _).bind_atomicAt fun _ => ?_
  refine (reads_aInteger _ _).bind_atomicAt fun d => ?_
  refine (reads_aInteger _ _).bind_atomicAt fun x => ?_
  refine atomicAt_get ?_
  refine (reads_errorIf _ _).bind_atomicAt fun _ => ?_
  apply atomicAt_patch
  simp only [Function.update_idem, Function.update_eq_self]

theorem atomic_xindexChangeMod (args : List Arg) : Atomic Memory.ind (xindexChangeMod args) := by
  intro m
  refine (reads_argNumber _ _).bind_atomicAt fun _ => ?_
  refine (reads_checkSizedIndex _).bind_atomicAt fun _ => ?_
  refine (reads_aInteger _ _).bind_atomicAt fun d => ?_
  refine (reads_aInteger _ _).bind_atomicAt fun x => ?_
  refine atomicAt_get ?_
  refine (reads_errorIf _ _).bind_atomicAt fun _ => ?_
  apply atomicAt_patch
  simp only [Function.update_idem, Function.update_eq_self]

theorem atomic_xindexChangeOffset (args : List Arg) :
    Atomic Memory.ind (xindexChangeOffset args) := by
  intro m
  refine (reads_argNumber _ _).bind_atomicAt fun _ => ?_
  refine (reads_checkSizedIndex _).bind_atomicAt fun _ => ?_
  refine (reads_aInteger _ _).bind_atomicAt fun x => ?_
  refine atomicAt_get ?_
  apply atomicAt_patch
  rfl

/-! ## When dimensions can be set -/

/-- The list of dimensions as an argument. -/
def Arg.ofDims : List ℤ → Arg
  | [] => .nil
  | d :: dims => .cons (.number d) (Arg.ofDims dims)

/-- The number of elements, as far as it is given. -/
def given (dims : List ℤ) : ℤ := (dims.filter (0 < ·)).prod

/-- The dimensions are legal, and the storage is large enough or can be made so. -/
structure Fits (alloc : ℤ → Bool) (st : Storage) (dims : List ℤ) : Prop where
  nonneg : ∀ d ∈ dims, 0 ≤ d
  one_unknown : dims.count 0 ≤ 1
  malloc : st.unsized = true → dims.count 0 = 0 ∧ alloc (given dims) = true
  realloc : st.unsized = false → st.size < given dims → st.ram = true ∧ alloc (given dims) = true

theorem given_pos (dims : List ℤ) : 0 < given dims := by
  unfold given
  apply List.prod_pos
  intro d hd
  simpa using (List.mem_filter.mp hd).2

theorem given_cons_pos {d : ℤ} (hd : 0 < d) (dims : List ℤ) :
    given (d :: dims) = d * given dims := by
  unfold given
  rw [List.filter_cons_of_pos (by simpa using hd), List.prod_cons]

theorem given_cons_zero (dims : List ℤ) : given (0 :: dims) = given dims := by
  unfold given
  rw [List.filter_cons_of_neg (by simp)]

/-- The loop computes the size of legal dimensions. -/
theorem sizeLoop_ok (size : ℤ) (unkn : Bool) (hnonneg : ∀ d ∈ dims, 0 ≤ d)
    (hone : dims.count 0 + (if unkn then 1 else 0) ≤ 1) (m : Memory) :
    result (sizeLoop size unkn dims) m =
      (.ok (size * given dims, unkn || decide (dims.count 0 ≠ 0)), m) := by
  induction dims generalizing size unkn with
  | nil => simp [sizeLoop, result, given]; rfl
  | cons d dims ih =>
      have hd := hnonneg d List.mem_cons_self
      have htail : ∀ d ∈ dims, 0 ≤ d := fun d hd => hnonneg d (List.mem_cons_of_mem _ hd)
      unfold sizeLoop
      rcases hd.eq_or_lt with rfl | hpos
      · rw [List.count_cons_self] at hone
        have hunkn : unkn = false := by
          cases unkn
          · rfl
          · simp at hone
        subst hunkn
        rw [if_neg (lt_irrefl 0), if_pos rfl]
        have herror : result (errorIf (false = true) "more than one unspecified dimension" : Prog Unit)
            m = (.ok (), m) := rfl
        rw [result_bind_ok herror, ih _ _ htail (by simp at hone ⊢; exact hone), given_cons_zero]
        simp
      · rw [if_pos hpos]
        have hcount : (d :: dims).count 0 = dims.count 0 := List.count_cons_of_ne hpos.ne'
        rw [hcount] at hone ⊢
        rw [ih _ _ htail hone, given_cons_pos hpos, mul_assoc]

/-- The loop finds what is illegal. -/
theorem sizeLoop_error (size : ℤ) (unkn : Bool)
    (h : (∃ d ∈ dims, d < 0) ∨ 1 < dims.count 0 + (if unkn then 1 else 0)) (m : Memory) :
    ∃ e, result (sizeLoop size unkn dims) m = (.error e, m) := by
  induction dims generalizing size unkn with
  | nil => cases unkn <;> simp at h
  | cons d dims ih =>
      unfold sizeLoop
      rcases lt_trichotomy d 0 with hneg | rfl | hpos
      · exact ⟨"illegal dimension", by rw [if_neg hneg.not_gt, if_neg hneg.ne]; rfl⟩
      · rw [if_neg (lt_irrefl 0), if_pos rfl]
        cases unkn with
        | true => exact ⟨"more than one unspecified dimension", rfl⟩
        | false =>
            have herror : result (errorIf (false = true) "more than one unspecified dimension" :
                Prog Unit) m = (.ok (), m) := rfl
            rw [result_bind_ok herror]
            apply ih
            rcases h with ⟨d, hd, hneg⟩ | h
            · rcases List.mem_cons.mp hd with rfl | hd
              · exact absurd hneg (lt_irrefl 0)
              · exact .inl ⟨d, hd, hneg⟩
            · right
              rw [List.count_cons_self] at h
              simp at h ⊢
              omega
      · rw [if_pos hpos]
        apply ih
        rcases h with ⟨d', hd', hneg⟩ | h
        · rcases List.mem_cons.mp hd' with rfl | hd'
          · exact absurd hneg hpos.not_gt
          · exact .inl ⟨d', hd', hneg⟩
        · rw [List.count_cons_of_ne hpos.ne'] at h
          exact .inr h

theorem result_storageMalloc (alloc : ℤ → Bool) {size : ℤ} (hsize : 0 < size) (hunsized : m.st.unsized = true) :
    result (storageMalloc alloc size) m =
      if alloc size = true then (.ok (), { m with st := ⟨false, true, size⟩ })
      else (.error "not enough memory", m) := by
  have hsized : ¬ m.st.unsized = false := by simp [hunsized]
  unfold storageMalloc
  rw [result_bind_ok (result_errorIf_neg hsize.not_ge _ _), result_bind_ok (result_get m),
    result_bind_ok (result_errorIf_neg hsized _ _)]
  by_cases halloc : alloc size = true
  · have hmemory : ¬ alloc size = false := by simp [halloc]
    rw [result_bind_ok (result_errorIf_neg hmemory _ _), if_pos halloc]
    rfl
  · have hmemory : alloc size = false := by simpa using halloc
    rw [result_bind_error (result_errorIf_pos hmemory _ _), if_neg halloc]

theorem result_storageRealloc {size : ℤ} (hsize : 0 < size) (hlarger : m.st.size < size) :
    result (storageRealloc alloc size) m =
      if m.st.ram = true then
        if alloc size = true then (.ok (), { m with st := { m.st with size := size } })
        else (.error "not enough memory", m)
      else (.error "Only a ram based storage can be enlarged", m) := by
  unfold storageRealloc
  rw [result_bind_ok (result_errorIf_neg hsize.not_ge _ _), result_bind_ok (result_get m)]
  by_cases hram : m.st.ram = true
  · have hram' : ¬ m.st.ram = false := by simp [hram]
    rw [result_bind_ok (result_errorIf_neg hram' _ _),
      result_bind_ok (result_errorIf_neg hlarger.not_gt _ _), if_pos hram]
    by_cases halloc : alloc size = true
    · have hmemory : ¬ alloc size = false := by simp [halloc]
      rw [result_bind_ok (result_errorIf_neg hmemory _ _), if_pos halloc]
      rfl
    · have hmemory : alloc size = false := by simpa using halloc
      rw [result_bind_error (result_errorIf_pos hmemory _ _), if_neg halloc]
  · have hram' : m.st.ram = false := by simpa using hram
    rw [result_bind_error (result_errorIf_pos hram' _ _), if_neg hram]

/-- The storage can be made ready. -/
def Ready (alloc : ℤ → Bool) (st : Storage) (size : ℤ) (unkn : Bool) : Prop :=
  (st.unsized = true → unkn = false ∧ alloc size = true) ∧
    (st.unsized = false → st.size < size → st.ram = true ∧ alloc size = true)

theorem makeReady_iff (alloc : ℤ → Bool) {size : ℤ} (hsize : 0 < size) (unkn : Bool) (m : Memory) :
    (∃ m', result (makeReady alloc size unkn) m = (.ok (), m')) ↔ Ready alloc m.st size unkn := by
  unfold makeReady Ready
  rw [result_bind_ok (result_get m)]
  cases hunsized : m.st.unsized with
  | true =>
      rw [onlyIf_pos rfl]
      cases unkn with
      | true =>
          have herror : result (errorIf (true = true) "Cannot compute storage size" >>= fun _ =>
              storageMalloc alloc size : Prog Unit) m = (.error "Cannot compute storage size", m) :=
            result_bind_error (result_errorIf_pos rfl _ _)
          rw [result_bind_error herror]
          simp
      | false =>
          have hmalloc := result_storageMalloc alloc hsize hunsized
          have hnext : result (errorIf (false = true) "Cannot compute storage size" >>= fun _ =>
              storageMalloc alloc size : Prog Unit) m = result (storageMalloc alloc size) m :=
            result_bind_ok (result_errorIf_neg Bool.false_ne_true _ _)
          rw [hmalloc] at hnext
          by_cases halloc : alloc size = true
          · rw [if_pos halloc] at hnext
            rw [result_bind_ok hnext, result_bind_ok (result_get _), onlyIf_neg (lt_irrefl size)]
            exact iff_of_true ⟨_, rfl⟩ ⟨fun _ => ⟨rfl, halloc⟩, fun h => by cases h⟩
          · rw [if_neg halloc] at hnext
            rw [result_bind_error hnext]
            simp [halloc]
  | false =>
      have hnext : result (onlyIf (false = true) (do
          errorIf (unkn = true) "Cannot compute storage size"
          storageMalloc alloc size) : Prog Unit) m = (.ok (), m) := rfl
      rw [result_bind_ok hnext, result_bind_ok (result_get m)]
      by_cases hlarger : m.st.size < size
      · rw [onlyIf_pos hlarger, result_storageRealloc hsize hlarger]
        cases hram : m.st.ram <;> cases halloc : alloc size <;> simp [hlarger]
      · rw [onlyIf_neg hlarger]
        exact iff_of_true ⟨m, rfl⟩ ⟨fun h => absurd h Bool.false_ne_true, fun _ h => absurd h hlarger⟩

theorem fits_iff {st : Storage} :
    Fits alloc st dims ↔ (∀ d ∈ dims, 0 ≤ d) ∧ dims.count 0 ≤ 1 ∧
      Ready alloc st (given dims) (decide (dims.count 0 ≠ 0)) := by
  constructor
  · intro h
    exact ⟨h.nonneg, h.one_unknown, fun hst => ⟨by simp [(h.malloc hst).1], (h.malloc hst).2⟩,
      h.realloc⟩
  · rintro ⟨hnonneg, hone, hmalloc, hrealloc⟩
    exact ⟨hnonneg, hone, fun hst => ⟨by simpa using (hmalloc hst).1, (hmalloc hst).2⟩, hrealloc⟩

/-- `index_dimension` succeeds if the dimensions fit. -/
theorem indexDimension_iff (alloc : ℤ → Bool) (hunsized : m.ind.unsized = true) (hlen : dims.length ≤ maxDims) :
    (∃ m', result (indexDimension alloc dims) m = (.ok (), m')) ↔ Fits alloc m.st dims := by
  have hsized : ¬ m.ind.unsized = false := by simp [hunsized]
  unfold indexDimension
  rw [result_bind_ok (result_get m), result_bind_ok (result_errorIf_neg hsized _ _),
    result_bind_ok (result_errorIf_neg hlen.not_gt _ _), fits_iff]
  by_cases hlegal : (∀ d ∈ dims, 0 ≤ d) ∧ dims.count 0 ≤ 1
  · have hloop := sizeLoop_ok 1 false hlegal.1 hlegal.2 m
    rw [one_mul, Bool.false_or] at hloop
    rw [result_bind_ok hloop]
    have hready := makeReady_iff alloc (given_pos dims) (decide (dims.count 0 ≠ 0)) m
    constructor
    · rintro ⟨m', hm'⟩
      refine ⟨hlegal.1, hlegal.2, hready.mp ?_⟩
      rcases hrun : result (makeReady alloc (given dims) (decide (dims.count 0 ≠ 0))) m
        with ⟨e | u, m''⟩
      · rw [result_bind_error hrun] at hm'
        cases hm'
      · exact ⟨m'', rfl⟩
    · rintro ⟨-, -, hst⟩
      obtain ⟨m', hm'⟩ := hready.mpr hst
      exact ⟨_, result_bind_ok hm'⟩
  · have hillegal : (∃ d ∈ dims, d < 0) ∨ 1 < dims.count 0 + (if false then 1 else 0) := by
      by_contra hno
      push Not at hno
      exact hlegal ⟨hno.1, hno.2⟩
    obtain ⟨e, he⟩ := sizeLoop_error 1 false hillegal m
    rw [result_bind_error he]
    refine iff_of_false ?_ fun h => hlegal ⟨h.1, h.2.1⟩
    rintro ⟨m', hm'⟩
    cases hm'

/-! ## The arguments of `index-redim` -/

theorem indexParseDimlist_ofDims {nd : ℕ} (hlen : nd + dims.length ≤ maxDims) (m : Memory) :
    result (indexParseDimlist nd (.ofDims dims)) m = (.ok dims, m) := by
  induction dims generalizing nd with
  | nil => rfl
  | cons d dims ih =>
      rw [List.length_cons] at hlen
      have hnd : ¬ maxDims ≤ nd := by omega
      rw [Arg.ofDims, indexParseDimlist, result_bind_ok (result_errorIf_neg hnd _ _),
        result_bind_ok (ih (by omega))]
      rfl

theorem of_indexParseDimlist {nd : ℕ} {l : Arg} {m' : Memory}
    (h : result (indexParseDimlist nd l) m = (.ok dims, m')) (hnd : nd ≤ maxDims) :
    l = .ofDims dims ∧ nd + dims.length ≤ maxDims := by
  induction nd, l using indexParseDimlist.induct generalizing dims with
  | case1 nd =>
      cases h
      exact ⟨rfl, hnd⟩
  | case2 nd x l ih =>
      rw [indexParseDimlist] at h
      by_cases hmany : maxDims ≤ nd
      · rw [result_bind_error (result_errorIf_pos hmany _ _)] at h
        cases h
      · rw [result_bind_ok (result_errorIf_neg hmany _ _)] at h
        rcases hrun : result (indexParseDimlist (nd + 1) l) m with ⟨e | rest, m''⟩
        · rw [result_bind_error hrun] at h
          cases h
        · rw [result_bind_ok hrun] at h
          have hm := reads_indexParseDimlist (nd + 1) l m
          rw [hrun] at hm
          obtain rfl : m'' = m := hm
          cases h
          obtain ⟨rfl, hlen⟩ := ih hrun (by omega)
          exact ⟨rfl, by rw [List.length_cons]; omega⟩
  | case3 nd l hnil hcons =>
      rw [indexParseDimlist] at h
      · cases h
      · exact hnil
      · exact hcons

theorem aList_ofDims (dims : List ℤ) (m : Memory) :
    result (aList [.index, .ofDims dims] 2) m = (.ok (.ofDims dims), m) := by
  cases dims <;> rfl

/-- The arguments are read if they are the index and a list of dimensions. -/
theorem redimArgs_iff {m' : Memory} : result (redimArgs args) m = (.ok dims, m') ↔
    args = [.index, .ofDims dims] ∧ dims.length ≤ maxDims ∧ m' = m := by
  constructor
  · intro h
    have hm := reads_redimArgs args m
    rw [h] at hm
    unfold redimArgs argNumber at h
    rcases args with _ | ⟨p, _ | ⟨l, _ | ⟨x, rest⟩⟩⟩
    · cases h
    · cases h
    · cases p with
      | nil => cases h
      | cons _ _ => cases h
      | number _ => cases h
      | other => cases h
      | index =>
          have hparse : result (indexParseDimlist 0 l) m = (.ok dims, m') := by
            cases l with
            | nil => exact h
            | cons _ _ => exact h
            | number _ => cases h
            | index => cases h
            | other => cases h
          obtain ⟨rfl, hlen⟩ := of_indexParseDimlist hparse (Nat.zero_le _)
          exact ⟨rfl, by omega, hm⟩
    · rw [result_bind_error (result_errorIf_pos (by simp) _ _)] at h
      cases h
  · rintro ⟨rfl, hlen, rfl⟩
    have hindex : result (aIndex [.index, .ofDims dims] 1) m' = (.ok (), m') := rfl
    unfold redimArgs argNumber
    rw [result_bind_ok (result_errorIf_neg (by simp) _ _), result_bind_ok hindex,
      result_bind_ok (aList_ofDims dims m')]
    exact indexParseDimlist_ofDims (by omega) m'

/-! ## All operations -/

inductive Op
  | redim
  | unfold
  | diagonal
  | narrow
  | select
  | transpose
  | transpose2
  | changeDim
  | changeMod
  | changeOffset

/-- The function that does it. -/
def Op.run (alloc : ℤ → Bool) : Op → List Arg → Prog Unit
  | .redim => xindexRedim alloc
  | .unfold => xindexUnfold
  | .diagonal => xindexDiagonal
  | .narrow => xindexNarrow
  | .select => xindexSelect
  | .transpose => xindexTranspose
  | .transpose2 => xindexTranspose2
  | .changeDim => xindexChangeDim
  | .changeMod => xindexChangeMod
  | .changeOffset => xindexChangeOffset

/-- A sized index loses its dimensions, and then the new ones may not fit. -/
theorem atomicAt_xindexRedim_iff (alloc : ℤ → Bool) (args : List Arg) (m : Memory) :
    AtomicAt Memory.ind (xindexRedim alloc args) m ↔
      ∀ dims, args = [.index, .ofDims dims] → dims.length ≤ maxDims → m.ind.unsized = false →
        Fits alloc m.st dims := by
  unfold xindexRedim
  rcases hargs : result (redimArgs args) m with ⟨e | dims, m'⟩
  · have hm := reads_redimArgs args m
    rw [hargs] at hm
    refine iff_of_true ?_ ?_
    · intro e' m'' h
      rw [result_bind_error hargs] at h
      cases h
      exact congrArg Memory.ind hm
    · intro dims hdims hlen _
      rw [redimArgs_iff.mpr ⟨hdims, hlen, rfl⟩] at hargs
      cases hargs
  · obtain ⟨rfl, hlen, rfl⟩ := redimArgs_iff.mp hargs
    have hrun : ∀ p : List ℤ → Prog Unit,
        result (redimArgs [.index, .ofDims dims] >>= p) m' = result (p dims) m' :=
      fun p => result_bind_ok hargs
    have hcond : (∀ dims', [Arg.index, .ofDims dims] = [.index, .ofDims dims'] →
        dims'.length ≤ maxDims → m'.ind.unsized = false → Fits alloc m'.st dims') ↔
          (m'.ind.unsized = false → Fits alloc m'.st dims) := by
      refine ⟨fun h => h dims rfl hlen, fun h dims' heq hlen' => ?_⟩
      have hread : result (redimArgs [.index, .ofDims dims]) m' = (.ok dims', m') :=
        redimArgs_iff.mpr ⟨heq, hlen', rfl⟩
      rw [hargs] at hread
      cases hread
      exact h
    rw [hcond]
    cases hunsized : m'.ind.unsized with
    | true =>
        refine iff_of_true ?_ fun h => by cases h
        intro e m'' h
        rw [hrun, result_bind_ok (result_get m'), onlyIf_neg (by simp [hunsized])] at h
        exact atomic_indexDimension alloc dims m' e m'' h
    | false =>
        -- what is left when the dimensions are set
        have hafter : ∃ m1 : Memory, m1.ind.unsized = true ∧ m1.st = m'.st ∧
            result (redimArgs [.index, .ofDims dims] >>= fun dims => do
              let m ← get
              onlyIf (m.ind.unsized = false) indexUndimension
              indexDimension alloc dims) m' = result (indexDimension alloc dims) m1 := by
          refine ⟨{ m' with ind := { m'.ind with unsized := true, ndim := -1 } }, rfl, rfl, ?_⟩
          rw [hrun, result_bind_ok (result_get m'), onlyIf_pos hunsized]
          rfl
        obtain ⟨m1, hm1, hst, hresult⟩ := hafter
        have hfits := indexDimension_iff alloc hm1 hlen
        rw [hst] at hfits
        unfold AtomicAt
        rw [hresult]
        constructor
        · intro h _
          apply hfits.mp
          rcases hdim : result (indexDimension alloc dims) m1 with ⟨e | u, m2⟩
          · have hsame := h e m2 hdim
            have hkept := atomic_indexDimension alloc dims m1 e m2 hdim
            rw [hkept] at hsame
            rw [hsame, hunsized] at hm1
            cases hm1
          · exact ⟨m2, rfl⟩
        · intro h e m2 hdim
          obtain ⟨m3, hok⟩ := hfits.mpr (h rfl)
          rw [hok] at hdim
          cases hdim

/-- An operation that signals an error leaves the index as it was, except that
`index-redim` takes the dimensions away from a sized index when the new ones do not fit. -/
theorem atomicAt_iff (alloc : ℤ → Bool) (op : Op) (args : List Arg) (m : Memory) :
    AtomicAt Memory.ind (op.run alloc args) m ↔
      (op = .redim → ∀ dims, args = [.index, .ofDims dims] → dims.length ≤ maxDims →
        m.ind.unsized = false → Fits alloc m.st dims) := by
  cases op with
  | redim =>
      rw [forall_prop_of_true rfl]
      exact atomicAt_xindexRedim_iff alloc args m
  | unfold => exact iff_of_true (atomic_xindexUnfold args m) nofun
  | diagonal => exact iff_of_true (atomic_xindexDiagonal args m) nofun
  | narrow => exact iff_of_true (atomic_xindexNarrow args m) nofun
  | select => exact iff_of_true (atomic_xindexSelect args m) nofun
  | transpose => exact iff_of_true (atomic_xindexTranspose args m) nofun
  | transpose2 => exact iff_of_true (atomic_xindexTranspose2 args m) nofun
  | changeDim => exact iff_of_true (atomic_xindexChangeDim args m) nofun
  | changeMod => exact iff_of_true (atomic_xindexChangeMod args m) nofun
  | changeOffset => exact iff_of_true (atomic_xindexChangeOffset args m) nofun

/-- A vector of three elements is to have the dimension `-1`. -/
theorem not_atomicAt_negative :
    ¬ AtomicAt Memory.ind (Op.redim.run (fun _ => true) [.index, .ofDims [-1]])
      ⟨⟨false, 1, 0, fun _ => 3, fun _ => 1⟩, ⟨false, true, 3⟩⟩ := by
  intro h
  have hfits := (atomicAt_iff _ _ _ _).mp h rfl [-1] rfl (by decide) rfl
  exact absurd (hfits.nonneg (-1) List.mem_cons_self) (by decide)

end Lush.Arrays.InPlace
