import Lush.Arrays.Bounds
import Lush.Arrays.MatrixFile

/-!
# Matrix files round trip

The header is read back word by word (`loadMatrixHeader_turn`), in the byte order that the
magic number tells.  The elements are gathered with the strides of the index and make a
contiguous matrix when they are loaded (`loadMatrix_eq`).  When they have been written in
the opposite byte order, `load_matrix` swaps them, but passes their number as an `int`:
of a matrix with more elements than that, some are not swapped.  A file gives back what
was saved if and only if those elements look the same both ways (`matrix_round_trips`).
-/

namespace Lush.Arrays

open Strides Words

variable {m : NumericIndex} {axes : List Axis} {ds : List ℤ} {opposite : Bool}
  {rest : List UInt8} {xs : List (List UInt8)} {type : StorageType}

theorem getLsbD_swap (x : Word) {i j : ℕ} (hi : i < 4) (hj : j < 8) :
    (swap x).getLsbD (8 * i + j) = x.getLsbD (8 * (3 - i) + j) := by
  interval_cases i <;> interval_cases j <;> simp [swap]

/-- `SWAP` turns the bytes round. -/
theorem encode_swap (x : Word) : encode (swap x) = (encode x).reverse := by
  apply List.ext_getElem
  · simp
  · intro i hi hi'
    have hlt : i < 4 := by simpa using hi
    rw [List.getElem_reverse, getElem_encode, getElem_encode]
    congr 1
    ext j hj
    simp only [BitVec.getElem_extractLsb']
    rw [getLsbD_swap x hlt hj]
    simp

@[simp] theorem swap_swap (x : Word) : swap (swap x) = x := by
  rw [← decode_encode (swap (swap x)), encode_swap, encode_swap, List.reverse_reverse,
    decode_encode]

/-- What has been written at once, when it is in the opposite byte order. -/
def turn (opposite : Bool) (bs : List UInt8) : List UInt8 := if opposite then bs.reverse else bs

@[simp] theorem length_turn (opposite : Bool) (bs : List UInt8) :
    (turn opposite bs).length = bs.length := by
  cases opposite <;> simp [turn]

theorem decode_turn (opposite : Bool) (w : Word) :
    decode 4 (turn opposite (encode w)) = if opposite then swap w else w := by
  cases opposite with
  | false => exact decode_encode w
  | true =>
      rw [turn, if_pos rfl, ← encode_swap, decode_encode, if_pos rfl]

theorem read4_turn (opposite : Bool) (w : Word) (rest : List UInt8) :
    read4 (turn opposite (encode w) ++ rest) = .ok (if opposite then swap w else w, rest) := by
  have hlen : (turn opposite (encode w)).length = 4 := by simp
  rw [read4, if_pos (by simp), List.take_left' hlen, List.drop_left' hlen, decode_turn]

theorem readSwapped_turn (opposite : Bool) (w : Word) (rest : List UInt8) :
    readSwapped opposite (turn opposite (encode w) ++ rest) = .ok (w, rest) := by
  rw [readSwapped, read4_turn]
  cases opposite <;> simp [bind, Except.bind]

/-- A dimension fits in a word. -/
theorem toInt_word {x : ℤ} (hlo : -2147483648 ≤ x) (hhi : x < 2147483648) :
    (BitVec.ofInt (8 * 4) x).toInt = x := by
  rw [BitVec.toInt_ofInt]
  exact Int.bmod_eq_of_le (by norm_num; omega) (by norm_num; omega)

theorem loadDims_turn (h : ∀ d ∈ ds, 0 < d ∧ d < 2147483648) :
    loadDims opposite ds.length (((ds.map write4).map (turn opposite)).flatten ++ rest) =
      .ok (ds, rest) := by
  induction ds with
  | nil => rfl
  | cons d ds ih =>
      obtain ⟨⟨hpos, hlt⟩, hds⟩ := List.forall_mem_cons.mp h
      have hd : (BitVec.ofInt (8 * 4) d).toInt = d := toInt_word (by omega) hlt
      rw [List.length_cons, loadDims, List.map_cons, List.map_cons, List.flatten_cons,
        List.append_assoc, write4, readSwapped_turn]
      simp only [bind, Except.bind, hd]
      rw [if_neg (by omega), ih hds]

theorem loadOnes_turn (n : ℕ) :
    loadOnes opposite n (((List.replicate n (write4 1)).map (turn opposite)).flatten ++ rest) =
      .ok rest := by
  induction n with
  | zero => rfl
  | succ n ih =>
      have hone : (BitVec.ofInt (8 * 4) 1).toInt = 1 := toInt_word (by norm_num) (by norm_num)
      rw [loadOnes, List.replicate_succ, List.map_cons, List.flatten_cons, List.append_assoc,
        write4, readSwapped_turn]
      simp only [bind, Except.bind, hone, ne_eq, not_true_eq_false, if_false]
      exact ih

theorem find_magic (t : StorageType) :
    StorageType.all.find? (fun u => decide (t.magic = u.magic)) = some t := by
  cases t <;> decide

theorem find_swapped (t : StorageType) :
    StorageType.all.find? (fun u => decide (t.magic = swap u.magic)) = none := by
  cases t <;> decide

theorem find_swap (t : StorageType) :
    StorageType.all.find? (fun u => decide (swap t.magic = swap u.magic)) = some t := by
  cases t <;> decide

/-! ## The header -/

/-- An index whose elements are all in its storage, and have the size of their type. -/
structure Legal (m : NumericIndex) : Prop extends Index.Legal m.data.length m.ind where
  bytes : ∀ x ∈ m.data, x.length = m.type.size

/-- The dimensions can be written as words. -/
def Short (m : NumericIndex) : Prop := ∀ a ∈ m.ind.axes, a.dim < 2147483648

/-- The dimensions. -/
def NumericIndex.dims (m : NumericIndex) : List ℤ := m.ind.axes.map Axis.dim

/-- The number of dimensions, as it is written. -/
def NumericIndex.ndim (m : NumericIndex) : ℤ := if m.ind.unsized then -1 else m.ind.axes.length

/-- The dimensions for SN1. -/
def NumericIndex.ones (m : NumericIndex) : List (List UInt8) :=
  if m.ndim = 1 ∨ m.ndim = 2 then List.replicate (3 - m.ndim).toNat (write4 1) else []

/-- What `save_matrix` writes before the elements. -/
def NumericIndex.header (m : NumericIndex) : List (List UInt8) :=
  encode m.type.magic :: write4 m.ndim :: (m.dims.map write4 ++ m.ones)

theorem saveDims_eq (h : ∀ a ∈ axes, a.dim < 2147483648) :
    saveDims axes = .ok ((axes.map Axis.dim).map write4) := by
  induction axes with
  | nil => rfl
  | cons a axes ih =>
      obtain ⟨ha, haxes⟩ := List.forall_mem_cons.mp h
      rw [saveDims, if_neg (by omega), ih haxes]
      rfl

theorem saveHeader_eq (h : Short m) :
    saveHeader m = .ok m.header := by
  rw [saveHeader, saveDims_eq h]
  simp only [bind, Except.bind]
  rfl

theorem loadMatrixDims_turn (hm : Legal m) (hshort : Short m) (type : StorageType) :
    loadMatrixDims type opposite
        (((write4 m.ndim :: (m.dims.map write4 ++ m.ones)).map (turn opposite)).flatten ++ rest) =
      .ok (⟨type, if m.ind.unsized then none else some m.dims, opposite⟩, rest) := by
  have hndim : (BitVec.ofInt (8 * 4) m.ndim).toInt = m.ndim := by
    apply toInt_word
    · unfold NumericIndex.ndim
      split_ifs <;> omega
    · unfold NumericIndex.ndim
      have hlen := hm.length
      rw [maxDims] at hlen
      split_ifs <;> omega
  rw [loadMatrixDims, List.map_cons, List.flatten_cons, List.append_assoc, write4,
    readSwapped_turn]
  simp only [bind, Except.bind, hndim]
  rcases hu : m.ind.unsized with _ | _
  · have hn : m.ndim = m.dims.length := by simp [NumericIndex.ndim, NumericIndex.dims, hu]
    have hd : ∀ d ∈ m.dims, 0 < d ∧ d < 2147483648 := by
      intro d hd
      obtain ⟨a, ha, rfl⟩ := List.mem_map.mp hd
      exact ⟨hm.positive a ha, hshort a ha⟩
    have hmax : ¬(m.ndim < 0 ∨ (maxDims : ℤ) < m.ndim) := by
      have hlen := hm.length
      rw [hn, NumericIndex.dims, List.length_map]
      omega
    rw [if_neg (by omega), if_neg hmax, List.map_append, List.flatten_append, List.append_assoc,
      hn, Int.toNat_natCast, loadDims_turn hd]
    simp only [NumericIndex.ones, hn, Bool.false_eq_true, if_false]
    by_cases hsn : (m.dims.length : ℤ) = 1 ∨ (m.dims.length : ℤ) = 2
    · simp only [if_pos hsn, loadOnes_turn]
    · simp only [if_neg hsn, List.map_nil, List.flatten_nil, List.nil_append]
  · have haxes := hm.unsized hu
    have hn : m.ndim = -1 := by simp [NumericIndex.ndim, hu]
    simp [hn, NumericIndex.dims, NumericIndex.ones, haxes]

theorem loadMatrixHeader_turn (hm : Legal m) (hshort : Short m) :
    loadMatrixHeader ((m.header.map (turn opposite)).flatten ++ rest) =
      .ok (⟨m.type, if m.ind.unsized then none else some m.dims, opposite⟩, rest) := by
  rw [loadMatrixHeader, NumericIndex.header, List.map_cons, List.flatten_cons, List.append_assoc,
    read4_turn]
  simp only [bind, Except.bind]
  cases opposite with
  | true =>
      simp only [if_true, find_swap]
      exact loadMatrixDims_turn hm hshort m.type
  | false =>
      simp only [Bool.false_eq_true, if_false, find_swapped, find_magic]
      exact loadMatrixDims_turn hm hshort m.type

/-! ## The elements -/

/-- The elements in row-major order. -/
def NumericIndex.elements (m : NumericIndex) : List (Option (List UInt8)) :=
  if m.ind.unsized then [] else (offsets m.ind.axes).map m.at

theorem exists_map_some {α β : Type} {f : α → Option β} {P : β → Prop} {l : List α}
    (h : ∀ a ∈ l, ∃ b, f a = some b ∧ P b) : ∃ bs : List β, l.map f = bs.map some ∧ ∀ b ∈ bs, P b := by
  induction l with
  | nil => exact ⟨[], rfl, List.forall_mem_nil _⟩
  | cons a l ih =>
      obtain ⟨⟨b, hb, hP⟩, hl⟩ := List.forall_mem_cons.mp h
      obtain ⟨bs, hbs, hPs⟩ := ih hl
      exact ⟨b :: bs, by rw [List.map_cons, List.map_cons, hb, hbs],
        List.forall_mem_cons.mpr ⟨hP, hPs⟩⟩

theorem exists_elements (hm : Legal m) :
    ∃ xs : List (List UInt8), m.elements = xs.map some ∧ ∀ x ∈ xs, x.length = m.type.size := by
  rcases hu : m.ind.unsized with _ | _
  · have hat : ∀ o ∈ offsets m.ind.axes, ∃ x, m.at o = some x ∧ x.length = m.type.size := by
      intro o ho
      obtain ⟨ks, hks, rfl⟩ := mem_offsets ho
      obtain ⟨hlo, hhi⟩ := hm.inside hu
      have hle := hks.low_le
      have hge := hks.le_high
      have hlt : (m.ind.offset + displacement ks m.ind.axes).toNat < m.data.length := by omega
      refine ⟨m.data.get ⟨_, hlt⟩, ?_, hm.bytes _ (List.get_mem _ _)⟩
      rw [NumericIndex.at, if_pos (by omega), List.getElem?_eq_getElem hlt, List.get_eq_getElem]
    obtain ⟨xs, hxs, hlen⟩ := exists_map_some hat
    exact ⟨xs, by simp [NumericIndex.elements, hu, hxs], hlen⟩
  · exact ⟨[], by simp [NumericIndex.elements, hu], List.forall_mem_nil _⟩

theorem saveElements_eq {offs : List ℤ} (h : offs.map m.at = xs.map some) :
    saveElements m offs = .ok xs := by
  induction offs generalizing xs with
  | nil =>
      rw [List.map_nil, eq_comm, List.map_eq_nil_iff] at h
      rw [saveElements, h]
  | cons o offs ih =>
      cases xs with
      | nil => simp at h
      | cons x xs =>
          obtain ⟨ho, hoffs⟩ := List.cons.inj h
          rw [saveElements, ho, ih hoffs]
          rfl

/-- **What is saved**: the header, and the elements in row-major order. -/
theorem saveMatrix_eq (hm : Legal m) (hshort : Short m) (hxs : m.elements = xs.map some) :
    saveMatrix m = .ok (m.header ++ xs) := by
  rw [saveMatrix, formatSaveMatrix, if_pos rfl, saveHeader_eq hshort]
  simp only [bind, Except.bind]
  rw [NumericIndex.elements] at hxs
  split_ifs at hxs ⊢ with hu
  · rw [eq_comm, List.map_eq_nil_iff] at hxs
    rw [hxs, List.append_nil]
  · simp only [aloop_eq hm.positive, Option.elim_some, saveElements_eq hxs]

theorem length_flatten_of_forall {n : ℕ} (h : ∀ x ∈ xs, x.length = n) :
    xs.flatten.length = n * xs.length := by
  induction xs with
  | nil => rfl
  | cons x xs ih =>
      obtain ⟨hx, hxs⟩ := List.forall_mem_cons.mp h
      rw [List.flatten_cons, List.length_append, hx, ih hxs, List.length_cons]
      ring

theorem length_header (hm : Legal m) : m.header.flatten.length =
    if m.ind.unsized then 2 * 4
    else if m.ind.axes.length = 1 ∨ m.ind.axes.length = 2 then 5 * 4
    else (m.ind.axes.length + 2) * 4 := by
  have hwords : ∀ x ∈ m.header, x.length = 4 := by
    have hword : ∀ x, (write4 x).length = 4 := fun x => length_encode _
    intro x hx
    simp only [NumericIndex.header, NumericIndex.ones, List.mem_cons, List.mem_append,
      List.mem_map] at hx
    rcases hx with rfl | rfl | ⟨d, -, rfl⟩ | hx
    · exact length_encode _
    · exact hword _
    · exact hword d
    · split_ifs at hx
      · rw [List.eq_of_mem_replicate hx, hword]
      · exact absurd hx List.not_mem_nil
  rw [length_flatten_of_forall hwords]
  simp only [NumericIndex.header, NumericIndex.ones, NumericIndex.dims, NumericIndex.ndim,
    List.length_cons, List.length_append, List.length_map]
  by_cases hu : m.ind.unsized = true
  · simp [hm.unsized hu, hu]
  · simp only [if_neg hu]
    by_cases hsn : m.ind.axes.length = 1 ∨ m.ind.axes.length = 2
    · rw [if_pos (by omega), if_pos hsn, List.length_replicate]
      omega
    · rw [if_neg (by omega), if_neg hsn, List.length_nil]
      ring

theorem length_elements (hu : m.ind.unsized = false) (hxs : m.elements = xs.map some) :
    xs.length = count m.ind.axes := by
  have hlen := congrArg List.length hxs
  rw [NumericIndex.elements, if_neg (by simp [hu]), List.length_map, List.length_map,
    length_offsets] at hlen
  exact hlen.symm

/-- `save_matrix_len` computes the length. -/
theorem length_saved (hm : Legal m) (hxs : m.elements = xs.map some)
    (hbytes : ∀ x ∈ xs, x.length = m.type.size) :
    ((m.header ++ xs).flatten.length : ℤ) = saveMatrixLen m := by
  rw [List.flatten_append, List.length_append, length_flatten_of_forall hbytes, length_header hm,
    saveMatrixLen, modeCheck]
  rcases hu : m.ind.unsized with _ | _
  · rw [length_elements hu hxs, ← count_eq_prod hm.positive]
    simp only [Bool.false_eq_true, if_false]
    split_ifs <;> push_cast <;> ring
  · rw [NumericIndex.elements, if_pos hu, eq_comm, List.map_eq_nil_iff] at hxs
    simp [hxs]

/-! ## Loading -/

/-- A contiguous index on a storage of its own. -/
def contiguous (type : StorageType) (ds : List ℤ) (data : List (List UInt8)) : NumericIndex :=
  ⟨type, data, ⟨0, false, 0, rowMajor ds⟩⟩

theorem genericMatrix_eq (type : StorageType) (hlen : ds.length ≤ maxDims) (hpos : ∀ d ∈ ds, 0 < d) :
    genericMatrix type (some ds) =
      .ok (contiguous type ds (List.replicate ds.prod.toNat (List.replicate type.size 0))) := by
  simp only [genericMatrix, indexDimension_new hlen hpos, contiguous]

theorem contiguousFrom_append (size : ℤ) (axes axes' : List Axis) :
    contiguousFrom size (axes ++ axes') =
      (contiguousFrom size axes && contiguousFrom (size * (axes.map Axis.dim).prod) axes') := by
  induction axes generalizing size with
  | nil => simp [contiguousFrom]
  | cons a axes ih =>
      rw [List.cons_append, contiguousFrom, contiguousFrom, ih, List.map_cons, List.prod_cons,
        mul_assoc]
      split_ifs <;> rfl

theorem contiguousFrom_rowMajor (ds : List ℤ) :
    contiguousFrom 1 (rowMajor ds).reverse = true := by
  induction ds with
  | nil => rfl
  | cons d ds ih =>
      have hprod : ((rowMajor ds).reverse.map Axis.dim).prod = ds.prod := by
        rw [List.map_reverse, map_dim_rowMajor, List.prod_reverse]
      rw [rowMajor, List.reverse_cons, contiguousFrom_append, ih, hprod]
      simp [contiguousFrom]

theorem freadBlocks_append {n : ℕ} (h : ∀ x ∈ xs, x.length = n) :
    freadBlocks n xs.length (xs.flatten ++ rest) = (xs, rest) := by
  induction xs with
  | nil => rfl
  | cons x xs ih =>
      obtain ⟨hx, hxs⟩ := List.forall_mem_cons.mp h
      have hle : n ≤ (x ++ (xs.flatten ++ rest)).length := by
        rw [List.length_append, hx]
        exact Nat.le_add_right _ _
      rw [List.length_cons, freadBlocks, List.flatten_cons, List.append_assoc, if_pos hle,
        List.drop_left' hx, List.take_left' hx, ih hxs]

theorem importRawMatrix_eq {data : List (List UInt8)}
    (hdata : (data.length : ℤ) = ds.prod) (hlen : (xs.length : ℤ) = ds.prod)
    (hxs : ∀ x ∈ xs, x.length = type.size) :
    importRawMatrix (contiguous type ds data) (xs.flatten ++ rest) =
      .ok (contiguous type ds xs, rest) := by
  have hsize : modeCheck (contiguous type ds data).ind = xs.length := by
    simp [modeCheck, contiguous, hlen]
  have hnat : data.length = xs.length := by omega
  have hcontig : contiguityCheck (contiguous type ds data).ind = true :=
    contiguousFrom_rowMajor ds
  rw [importRawMatrix, hsize, hcontig]
  simp [contiguous, freadBlocks_append hxs, NumericIndex.overwrite, hnat, bind, Except.bind]

theorem elements_contiguous (type : StorageType) (hpos : ∀ d ∈ ds, 0 < d) (hlen : (xs.length : ℤ) = ds.prod) :
    (contiguous type ds xs).elements = xs.map some := by
  have hcount : count (rowMajor ds) = xs.length := by
    have hprod := count_rowMajor hpos
    omega
  rw [NumericIndex.elements, contiguous, if_neg (by simp), offsets_rowMajor hpos, hcount,
    List.map_map]
  apply List.ext_getElem
  · simp
  · intro i hi hi'
    have hlt : i < xs.length := by simpa using hi
    simp [NumericIndex.at, hlt]

theorem swapBuffer_map_reverse (n : ℕ) (xs : List (List UInt8)) :
    swapBuffer n (xs.map List.reverse) = xs.take n ++ (xs.drop n).map List.reverse := by
  induction n generalizing xs with
  | zero => cases xs <;> rfl
  | succ n ih =>
      cases xs with
      | nil => rfl
      | cons x xs =>
          rw [List.map_cons, swapBuffer, ih, List.reverse_reverse, List.take_succ_cons,
            List.drop_succ_cons, List.cons_append]

/-- The elements that are loaded: those that `swap_buffer` does not reach stay as they are
in the file. -/
def restored (opposite : Bool) (xs : List (List UInt8)) : List (List UInt8) :=
  if opposite then
    xs.take (asInt xs.length).toNat ++ (xs.drop (asInt xs.length).toNat).map List.reverse
  else xs

@[simp] theorem length_restored : (restored opposite xs).length = xs.length := by
  unfold restored
  split_ifs
  · rw [List.length_append, List.length_map, ← List.length_append, List.take_append_drop]
  · rfl

theorem swapElements_eq (hlen : (xs.length : ℤ) = ds.prod)
    (hxs : ∀ x ∈ xs, x.length = type.size) :
    swapElements (contiguous type ds (xs.map List.reverse)) =
      contiguous type ds (restored true xs) := by
  have hsize : modeCheck (contiguous type ds (xs.map List.reverse)).ind = xs.length := by
    simp [modeCheck, contiguous, hlen]
  rw [swapElements, hsize]
  simp only [contiguous, restored, if_true, Int.toNat_zero, List.take_zero, List.nil_append,
    List.drop_zero, swapBuffer_map_reverse]
  split_ifs with h1
  · rfl
  · -- an element of one byte is its own reverse
    have hself : ∀ x ∈ xs, x.reverse = x := by
      intro x hx
      have hle : x.length ≤ 1 := by
        rw [hxs x hx]
        omega
      match x with
      | [] => rfl
      | [_] => rfl
      | _ :: _ :: _ => simp at hle
    have hmap : ∀ ys : List (List UInt8), (∀ y ∈ ys, y ∈ xs) → ys.map List.reverse = ys :=
      fun ys hys => (List.map_congr_left fun y hy => hself y (hys y hy)).trans (List.map_id' ys)
    rw [hmap xs fun _ h => h, hmap _ fun _ h => List.mem_of_mem_drop h, List.take_append_drop]

/-- **What is loaded from what has been saved.** -/
theorem loadMatrix_eq (hm : Legal m) (hshort : Short m) (hxs : m.elements = xs.map some)
    (hbytes : ∀ x ∈ xs, x.length = m.type.size) :
    loadMatrix (((m.header ++ xs).map (turn opposite)).flatten ++ rest) =
      .ok (if m.ind.unsized then ⟨m.type, [], newIndex 0⟩
        else contiguous m.type m.dims (restored opposite xs), rest) := by
  rw [loadMatrix, List.map_append, List.flatten_append, List.append_assoc,
    loadMatrixHeader_turn hm hshort]
  simp only [bind, Except.bind]
  rcases hu : m.ind.unsized with _ | _
  · have hpos : ∀ d ∈ m.dims, 0 < d := List.forall_mem_map.mpr hm.positive
    have hlen : (xs.length : ℤ) = m.dims.prod := by
      rw [length_elements hu hxs, count_eq_prod hm.positive]
      rfl
    have hmax : m.dims.length ≤ maxDims := by
      rw [NumericIndex.dims, List.length_map]
      exact hm.length
    have hturn : ∀ x ∈ xs.map (turn opposite), x.length = m.type.size := by
      intro x hx
      obtain ⟨y, hy, rfl⟩ := List.mem_map.mp hx
      rw [length_turn, hbytes y hy]
    have himport : importRawMatrix (contiguous m.type m.dims
          (List.replicate m.dims.prod.toNat (List.replicate m.type.size 0)))
        ((xs.map (turn opposite)).flatten ++ rest) =
        .ok (contiguous m.type m.dims (xs.map (turn opposite)), rest) := by
      apply importRawMatrix_eq _ _ hturn
      · rw [List.length_replicate]
        omega
      · rw [List.length_map, hlen]
    simp only [Bool.false_eq_true, if_false, genericMatrix_eq m.type hmax hpos, himport,
      reduceCtorEq]
    cases opposite with
    | false =>
        have hid : turn false = id := rfl
        simp only [hid, List.map_id, restored, Bool.false_eq_true, if_false]
    | true =>
        have hswap := swapElements_eq hlen hbytes
        have hreverse : turn true = List.reverse := rfl
        simp only [if_true, hreverse, hswap]
  · rw [NumericIndex.elements, if_pos hu, eq_comm, List.map_eq_nil_iff] at hxs
    simp [hxs, genericMatrix]

/-! ## Round trips -/

/-- The file is read up to the rest, as an index that looks the same. -/
def Restores (m : NumericIndex) (file rest : List UInt8) : Prop :=
  ∃ m', loadMatrix file = .ok (m', rest) ∧ m'.type = m.type ∧
    m'.ind.unsized = m.ind.unsized ∧ m'.dims = m.dims ∧ m'.elements = m.elements

/-- `save_matrix` writes as much as `save_matrix_len` says, and it can be loaded from a
file in either byte order. -/
def RoundTrips (m : NumericIndex) : Prop :=
  ∃ chunks, saveMatrix m = .ok chunks ∧ (chunks.flatten.length : ℤ) = saveMatrixLen m ∧
    ∀ opposite rest, Restores m ((chunks.map (turn opposite)).flatten ++ rest) rest

/-- The elements that `swap_buffer` does not reach, as their number is passed as an
`int`, are the same in both byte orders. -/
def SwapReaches (m : NumericIndex) : Prop :=
  ∀ x ∈ m.elements.drop (asInt m.elements.length).toNat, x.map List.reverse = x

theorem restored_eq_iff : restored true xs = xs ↔
    ∀ x ∈ xs.drop (asInt xs.length).toNat, x.reverse = x := by
  conv_lhs => rhs; rw [← List.take_append_drop (asInt xs.length).toNat xs]
  rw [restored, if_pos rfl, List.append_cancel_left_eq]
  conv_lhs => rhs; rw [← List.map_id (xs.drop _)]
  exact List.map_inj_left

theorem swapReaches_iff (hxs : m.elements = xs.map some) :
    SwapReaches m ↔ restored true xs = xs := by
  rw [SwapReaches, hxs, List.length_map, ← List.map_drop, List.forall_mem_map, restored_eq_iff]
  simp only [Option.map_some, Option.some.injEq]

theorem restores_iff (hm : Legal m) (hshort : Short m) (hxs : m.elements = xs.map some)
    (hbytes : ∀ x ∈ xs, x.length = m.type.size) :
    Restores m (((m.header ++ xs).map (turn opposite)).flatten ++ rest) rest ↔
      restored opposite xs = xs := by
  have hload := @loadMatrix_eq m opposite rest xs hm hshort hxs hbytes
  rw [Restores, hload]
  rcases hu : m.ind.unsized with _ | _
  · have hpos : ∀ d ∈ m.dims, 0 < d := List.forall_mem_map.mpr hm.positive
    have hlen : ((restored opposite xs).length : ℤ) = m.dims.prod := by
      rw [length_restored, length_elements hu hxs, count_eq_prod hm.positive]
      rfl
    have helements := elements_contiguous m.type hpos hlen
    have hdims : (contiguous m.type m.dims (restored opposite xs)).dims = m.dims :=
      map_dim_rowMajor m.dims
    constructor
    · rintro ⟨m', hm', -, -, -, heq⟩
      obtain ⟨rfl, -⟩ := Prod.mk.inj (Except.ok.inj hm')
      rw [if_neg (by simp), helements, hxs] at heq
      exact List.map_injective_iff.mpr (Option.some_injective _) heq
    · intro heq
      refine ⟨_, rfl, ?_⟩
      rw [if_neg (by simp), helements, hdims, heq, hxs]
      exact ⟨rfl, rfl, rfl, rfl⟩
  · have hnil := hxs
    rw [NumericIndex.elements, if_pos hu, eq_comm, List.map_eq_nil_iff] at hnil
    constructor
    · intro _
      rw [hnil]
      cases opposite <;> rfl
    · intro _
      refine ⟨_, rfl, rfl, rfl, ?_, ?_⟩
      · simp [NumericIndex.dims, newIndex, hm.unsized hu]
      · rw [hxs, hnil]
        rfl

theorem RoundTrips.swapReaches (h : RoundTrips m) (hm : Legal m) (hshort : Short m) :
    SwapReaches m := by
  obtain ⟨xs, hxs, hbytes⟩ := exists_elements hm
  obtain ⟨chunks, hsave, -, hload⟩ := h
  obtain rfl := Except.ok.inj ((saveMatrix_eq hm hshort hxs).symm.trans hsave)
  exact (swapReaches_iff hxs).mpr ((restores_iff hm hshort hxs hbytes).mp (hload true []))

/-- **Matrix files round trip, in both byte orders, if and only if `swap_buffer` reaches
all elements that it would change.** -/
theorem matrix_round_trips (hm : Legal m) (hshort : Short m) : RoundTrips m ↔ SwapReaches m := by
  refine ⟨fun h => h.swapReaches hm hshort, fun hreach => ?_⟩
  obtain ⟨xs, hxs, hbytes⟩ := exists_elements hm
  refine ⟨_, saveMatrix_eq hm hshort hxs, length_saved hm hxs hbytes, fun opposite rest => ?_⟩
  apply (restores_iff hm hshort hxs hbytes).mpr
  cases opposite with
  | false => rfl
  | true => exact (swapReaches_iff hxs).mp hreach

/-- A transposed matrix of two rows and three columns. -/
theorem matrix_round_trips_transposed :
    RoundTrips ⟨.i16, [[1, 0], [2, 0], [3, 0], [4, 0], [5, 0], [6, 1]],
      ⟨0, false, 0, [⟨3, 1⟩, ⟨2, 3⟩]⟩⟩ := by
  refine (matrix_round_trips ⟨⟨by decide, ?_, by decide, fun _ => ⟨by decide, by decide⟩⟩, by decide⟩
    ?_).mpr ?_
  · simp
  · simp [Short]
  · unfold SwapReaches
    decide

/-- An element that is seen from `65536` rows and `32768` columns. -/
def wide : NumericIndex := ⟨.i16, [[1, 0]], ⟨0, false, 0, [⟨65536, 0⟩, ⟨32768, 0⟩]⟩⟩

theorem wide_legal : Legal wide :=
  ⟨⟨by decide, by simp [wide], by decide, fun _ => ⟨by decide, by decide⟩⟩, by decide⟩

theorem not_swapReaches_wide : ¬ SwapReaches wide := by
  have hpos : Positive wide.ind.axes := wide_legal.positive
  have hat : ∀ o ∈ offsets wide.ind.axes, wide.at o = some [1, 0] := by
    intro o ho
    obtain ⟨ks, hks, rfl⟩ := mem_offsets ho
    have hzero : displacement ks wide.ind.axes = 0 :=
      le_antisymm (hks.le_high.trans (by decide)) (le_trans (by decide) hks.low_le)
    rw [hzero]
    rfl
  have hcount : count wide.ind.axes = 2147483648 := by
    simp [wide]
  have helements : wide.elements = List.replicate 2147483648 (some [1, 0]) := by
    rw [NumericIndex.elements, if_neg (by decide), List.map_congr_left hat, List.map_const',
      length_offsets, hcount]
  have hdrop : (asInt (2147483648 : ℕ)).toNat = 0 := by decide
  intro hreach
  rw [SwapReaches, helements, List.length_replicate, hdrop, List.drop_zero] at hreach
  have hself := hreach _ (List.mem_replicate.mpr ⟨by norm_num, rfl⟩)
  exact absurd hself (by decide)

theorem loads_otherwise : ¬ ∀ m, Legal m → Short m → RoundTrips m := by
  intro hall
  have hshort : Short wide := by simp [Short, wide]
  exact not_swapReaches_wide ((hall wide wide_legal hshort).swapReaches wide_legal hshort)

end Lush.Arrays
