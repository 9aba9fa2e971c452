import Lush.Datatable.Dictionary
import Lush.Ints
import Lush.Text.Numbers

/-!
# Integer columns

An `IntColumn` is a dictionary of integers.  Its pool is an `int-matrix` that grows, and
the keys of its hash table are the integers as `sprintf` prints them.  It does what a
string column does with these texts (`strings`), as long as its pool is well formed
(`Pooled`).  Like a string column it keeps an index that is valid when it is built from
codes (`stale_index`), and it is a faithful vector of integers when this does not happen
(`intColumn_faithful`).
-/

namespace Lush.Datatable

open CompressedRows Runs StringColumn

/-- The slots of an `IntColumn`. -/
structure IntColumn where
  valToCode : List UInt8 → Option ℕ
  pool : List (BitVec 32)
  codes : List ℕ
  poolSize : ℕ
  numRows : ℕ
  capacity : ℕ
  poolCapacity : ℕ
  idxOffsets : Option (List ℕ)
  idxRows : Option (List ℕ)
  idxValid : Bool

namespace IntColumn

/-- `(sprintf "%d" val)`: a number alone is printed by `str_number`. -/
def key (val : BitVec 32) : List UInt8 :=
  Text.strNumber (Text.ofInt val.toInt)

/-- `(int-matrix n)`, for a pool. -/
def poolMatrix (n : ℕ) : Except Fault (List (BitVec 32)) :=
  if n = 0 then .error (.error "Cannot compute storage size") else .ok (List.replicate n 0)

/-- `(pool i val)`. -/
def storeValue (pool : List (BitVec 32)) (i : ℕ) (val : BitVec 32) : Option (List (BitVec 32)) :=
  if i < pool.length then some (pool.set i val) else none

/-- The first `n` values are copied. -/
def copyPool (pool : List (BitVec 32)) (n : ℕ) (newPool : List (BitVec 32)) :
    Option (List (BitVec 32)) :=
  (List.range n).foldlM (fun newPool i => do
    let val ← pool[i]?
    storeValue newPool i val) newPool

/-- `(new IntColumn init-cap)`. -/
def new (initCap : ℕ) : IntColumn where
  valToCode _ := none
  pool := List.replicate 64 0
  codes := List.replicate (max 64 initCap) 0
  poolSize := 0
  numRows := 0
  capacity := max 64 initCap
  poolCapacity := 64
  idxOffsets := none
  idxRows := none
  idxValid := false

/-- Room for a value. -/
def growPool (ic : IntColumn) : Except Fault IntColumn :=
  if ic.poolCapacity ≤ ic.poolSize then do
    let newPool ← poolMatrix (2 * ic.poolCapacity)
    let newPool ← checked (copyPool ic.pool ic.poolSize newPool)
    .ok { ic with pool := newPool, poolCapacity := 2 * ic.poolCapacity }
  else .ok ic

/-- The code of a value, which is put in the pool when it is new. -/
def internValue (ic : IntColumn) (val : BitVec 32) : Except Fault (IntColumn × ℕ) :=
  match ic.valToCode (key val) with
  | some code => .ok (ic, code)
  | none => do
      let ic ← growPool ic
      let pool ← checked (storeValue ic.pool ic.poolSize val)
      .ok ({ ic with
        valToCode := Function.update ic.valToCode (key val) (some ic.poolSize)
        pool := pool
        poolSize := ic.poolSize + 1 }, ic.poolSize)

/-- Room for a row. -/
def grow (ic : IntColumn) : Except Fault IntColumn :=
  if ic.capacity ≤ ic.numRows then do
    let newCodes ← intMatrix (2 * ic.capacity)
    let newCodes ← checked (copy ic.codes ic.numRows newCodes)
    .ok { ic with codes := newCodes, capacity := 2 * ic.capacity }
  else .ok ic

/-- The code of a row is stored. -/
def storeCode (ic : IntColumn) (code : ℕ) : Except Fault IntColumn := do
  let ic ← grow ic
  let codes ← checked (store ic.codes ic.numRows code)
  .ok { ic with codes := codes, numRows := ic.numRows + 1, idxValid := false }

/-- `append`. -/
def append (ic : IntColumn) (val : BitVec 32) : Except Fault IntColumn := do
  let (ic, code) ← internValue ic val
  storeCode ic code

/-- `get`. -/
def get (ic : IntColumn) (i : ℤ) : Except Fault (Option (BitVec 32)) :=
  if 0 ≤ i ∧ i < ic.numRows then do
    let code ← checked ic.codes[i.toNat]?
    some <$> checked ic.pool[code]?
  else .ok none

/-- `has-index`. -/
def hasIndex (ic : IntColumn) : Bool :=
  ic.idxOffsets.isSome && ic.idxRows.isSome && ic.idxValid

/-- `drop-index`. -/
def dropIndex (ic : IntColumn) : IntColumn :=
  { ic with idxOffsets := none, idxRows := none, idxValid := false }

/-- `_index-lookup`. -/
def indexLookup (ic : IntColumn) (code : ℕ) : Except Fault (List ℕ) :=
  match ic.idxOffsets, ic.idxRows with
  | some offsets, some rows => do
      let a ← checked offsets[code]?
      let b ← checked offsets[code + 1]?
      checked (slice rows a b)
  | _, _ => .error .undefined

/-- The scan of `where-eq`. -/
def scan (ic : IntColumn) (target : ℕ) : Except Fault (List ℕ) :=
  (List.range ic.numRows).foldlM (fun result i => do
    let code ← checked ic.codes[i]?
    .ok (if code = target then result ++ [i] else result)) []

/-- `where-eq`. -/
def whereEq (ic : IntColumn) (val : BitVec 32) : Except Fault (List ℕ) :=
  match ic.valToCode (key val) with
  | none => .ok []
  | some target => if ic.hasIndex then ic.indexLookup target else ic.scan target

/-- The loop that registers the values of a pool, from the code `i` on. -/
def register : List (BitVec 32) → ℕ → (List UInt8 → Option ℕ) → List UInt8 → Option ℕ
  | [], _, table => table
  | val :: pool, i, table => register pool (i + 1) (Function.update table (key val) (some i))

/-- `build-from-codes`. -/
def buildFromCodes (ic : IntColumn) (codes : List ℕ) (pool : List (BitVec 32)) : IntColumn :=
  { ic with
    valToCode := register pool 0 fun _ => none
    pool := pool
    poolSize := pool.length
    poolCapacity := pool.length
    codes := codes
    numRows := codes.length
    capacity := codes.length }

/-- `build-index`. -/
def buildIndex (ic : IntColumn) : Except Fault IntColumn :=
  if 0 < ic.numRows then do
    let counts ← intMatrix (ic.poolSize + 1)
    let counts ← checked (tally ic.codes ic.numRows counts)
    let offsets ← intMatrix (ic.poolSize + 1)
    let rows ← intMatrix ic.numRows
    let pos ← intMatrix ic.poolSize
    let offsets ← checked (store offsets 0 0)
    let offsets ← checked (starts counts ic.poolSize offsets)
    let pos ← checked (copy offsets ic.poolSize pos)
    let (_, rows) ← checked (scatter ic.codes ic.numRows pos rows)
    .ok { ic with idxOffsets := some offsets, idxRows := some rows, idxValid := true }
  else .ok ic

/-! ## The column of texts -/

variable {ic ic' : IntColumn} {rows : List (BitVec 32)} {val : BitVec 32}

/-- The values of the pool. -/
def values (ic : IntColumn) : List (BitVec 32) := ic.pool.take ic.poolSize

/-- The string column of the texts of the values. -/
def strings (ic : IntColumn) : StringColumn (List UInt8) where
  strToCode := ic.valToCode
  codeToStr := ic.values.map key
  codes := ic.codes
  poolSize := ic.poolSize
  numRows := ic.numRows
  capacity := ic.capacity
  poolFname := none
  idxOffsets := ic.idxOffsets
  idxRows := ic.idxRows
  idxValid := ic.idxValid

/-- The pool has the size that the column takes it to have. -/
structure Pooled (ic : IntColumn) : Prop where
  length : ic.pool.length = ic.poolCapacity
  le : ic.poolSize ≤ ic.poolCapacity
  pos : 0 < ic.poolCapacity

theorem key_injective : Function.Injective key := by
  have hsmall : ∀ val : BitVec 32, key val = Text.integerText val.toInt := by
    intro val
    have hlower := val.le_toInt
    have hupper := val.toInt_lt
    exact Text.strNumber_ofInt (by omega)
  intro v w heq
  rw [hsmall, hsmall] at heq
  exact BitVec.eq_of_toInt_eq (Text.integerText_injective heq)

theorem strings_loadPool (ic : IntColumn) : ic.strings.loadPool = ic.strings := by
  rw [StringColumn.loadPool.eq_def]
  cases hstr : ic.strings.codeToStr with
  | nil => rfl
  | cons s l => rfl

theorem register_eq_strings (pool : List (BitVec 32)) (i : ℕ) (table : List UInt8 → Option ℕ) :
    register pool i table = StringColumn.register (pool.map key) i table := by
  induction pool generalizing i table with
  | nil => rfl
  | cons val pool ih => exact ih (i + 1) _

theorem copyPool_ok {pool newPool : List (BitVec 32)} {n : ℕ} (hpool : n ≤ pool.length)
    (hnew : n ≤ newPool.length) :
    ∃ copied, copyPool pool n newPool = some copied ∧ copied.length = newPool.length ∧
      copied.take n = pool.take n := by
  have hcopy := foldlM_range (I := fun i (copied : List (BitVec 32)) =>
    copied.length = newPool.length ∧ copied.take i = pool.take i) (n := n) ⟨rfl, rfl⟩
    (f := fun newPool i => do
      let val ← pool[i]?
      storeValue newPool i val)
  apply hcopy
  intro i copied hi ⟨hlen, htake⟩
  have hic : i < copied.length := by omega
  have hip : i < pool.length := by omega
  refine ⟨copied.set i pool[i], ?_, by simpa using hlen, ?_⟩
  · simp [List.getElem?_eq_getElem hip, storeValue, hic]
  · rw [List.take_add_one, List.take_set_of_le le_rfl, htake, List.getElem?_set_self hic,
      List.take_add_one, List.getElem?_eq_getElem hip]

theorem Pooled.growPool (h : Pooled ic) :
    ∃ pool, ic.growPool = .ok { ic with pool := pool, poolCapacity := pool.length } ∧
      ic.poolSize < pool.length ∧ pool.take ic.poolSize = ic.values := by
  have hle := h.le
  have hpos := h.pos
  rw [IntColumn.growPool]
  by_cases hfull : ic.poolCapacity ≤ ic.poolSize
  · have hne : ¬2 * ic.poolCapacity = 0 := by omega
    have hroom : ic.poolSize ≤ (List.replicate (2 * ic.poolCapacity) (0 : BitVec 32)).length := by
      rw [List.length_replicate]
      omega
    obtain ⟨pool, hcopy, hlen, htake⟩ := copyPool_ok (hle.trans h.length.ge) hroom
    rw [List.length_replicate] at hlen
    refine ⟨pool, ?_, by omega, htake⟩
    rw [if_pos hfull, poolMatrix, if_neg hne]
    simp only [Bind.bind, Except.bind, hcopy, checked, hlen]
  · refine ⟨ic.pool, ?_, ?_, rfl⟩
    · rw [if_neg hfull, h.length]
    · rw [h.length]
      omega

/-- A value gets the code of its text. -/
theorem Pooled.internValue (h : Pooled ic) (val : BitVec 32) :
    ∃ ic' code, ic.internValue val = .ok (ic', code) ∧ Pooled ic' ∧
      ic.strings.internString (key val) = (ic'.strings, code) := by
  rw [IntColumn.internValue, StringColumn.internString, show ic.strings.strToCode = ic.valToCode
    from rfl]
  cases hcode : ic.valToCode (key val) with
  | some code => exact ⟨ic, code, rfl, h, rfl⟩
  | none =>
      obtain ⟨pool, hgrow, hroom, htake⟩ := h.growPool
      refine ⟨{ ic with
        valToCode := Function.update ic.valToCode (key val) (some ic.poolSize)
        pool := pool.set ic.poolSize val
        poolCapacity := pool.length
        poolSize := ic.poolSize + 1 }, ic.poolSize, ?_, ?_, ?_⟩
      · simp only [hgrow, ok_bind, storeValue, hroom, if_true, checked]
      · exact ⟨List.length_set, hroom, Nat.zero_lt_of_lt hroom⟩
      · have hvalues : (pool.set ic.poolSize val).take (ic.poolSize + 1) =
            ic.values ++ [val] := by
          rw [List.take_add_one, List.take_set_of_le le_rfl, htake,
            List.getElem?_set_self hroom]
          rfl
        simp only [strings, values] at hvalues ⊢
        rw [hvalues, List.map_append, List.map_singleton]

theorem grow_strings (ic : IntColumn) : strings <$> ic.grow = ic.strings.grow := by
  rw [IntColumn.grow, StringColumn.grow]
  simp only [show ic.strings.capacity = ic.capacity from rfl,
    show ic.strings.numRows = ic.numRows from rfl, show ic.strings.codes = ic.codes from rfl]
  split_ifs with hfull
  · simp only [map_bind]
    rfl
  · rfl

/-- The code of a row is stored as in a string column. -/
theorem storeCode_strings (ic : IntColumn) (code : ℕ) :
    strings <$> ic.storeCode code = (do
      let sc ← ic.strings.grow
      let codes ← checked (store sc.codes sc.numRows code)
      .ok { sc with codes := codes, numRows := sc.numRows + 1, idxValid := false }) := by
  rw [storeCode, ← grow_strings]
  simp only [map_bind, bind_map_left]
  rfl

/-- `append` is that of the string column. -/
theorem Pooled.append (h : Pooled ic) (val : BitVec 32) :
    strings <$> ic.append val = ic.strings.append (key val) := by
  obtain ⟨ic', code, hintern, hpooled, hstring⟩ := h.internValue val
  rw [IntColumn.append, StringColumn.append, strings_loadPool, hintern, hstring]
  exact storeCode_strings ic' code

theorem Pooled.grow (h : Pooled ic) (hgrow : ic.grow = .ok ic') : Pooled ic' := by
  rw [IntColumn.grow] at hgrow
  split_ifs at hgrow with hfull
  · obtain ⟨new, -, hgrow⟩ := bind_ok.mp hgrow
    obtain ⟨codes, -, hgrow⟩ := bind_ok.mp hgrow
    cases hgrow
    exact ⟨h.length, h.le, h.pos⟩
  · cases hgrow
    exact h

theorem Pooled.append_pooled (h : Pooled ic) (happend : ic.append val = .ok ic') :
    Pooled ic' := by
  obtain ⟨ic1, code, hintern, h1, -⟩ := h.internValue val
  rw [IntColumn.append, hintern] at happend
  simp only [ok_bind, storeCode] at happend
  obtain ⟨ic2, hgrow, happend⟩ := bind_ok.mp happend
  obtain ⟨codes, -, happend⟩ := bind_ok.mp happend
  cases happend
  have h2 := h1.grow hgrow
  exact ⟨h2.length, h2.le, h2.pos⟩

theorem buildIndex_strings (ic : IntColumn) :
    strings <$> ic.buildIndex = ic.strings.buildIndex := by
  rw [IntColumn.buildIndex, StringColumn.buildIndex, strings_loadPool]
  simp only [show ic.strings.numRows = ic.numRows from rfl,
    show ic.strings.poolSize = ic.poolSize from rfl, show ic.strings.codes = ic.codes from rfl]
  split_ifs with hrows
  · simp only [map_bind]
    rfl
  · rfl

theorem Pooled.buildIndex (h : Pooled ic) (hbuild : ic.buildIndex = .ok ic') : Pooled ic' := by
  rw [IntColumn.buildIndex] at hbuild
  split_ifs at hbuild with hrows
  · simp only [bind_ok] at hbuild
    obtain ⟨_, -, _, -, _, -, _, -, _, -, _, -, _, -, _, -, s, -, hbuild⟩ := hbuild
    cases hbuild
    exact ⟨h.length, h.le, h.pos⟩
  · cases hbuild
    exact h

/-! ## What a column holds -/

/-- The column stands for these rows. -/
structure Holds (ic : IntColumn) (rows : List (BitVec 32)) : Prop where
  pooled : Pooled ic
  strings : StringColumn.Holds ic.strings (ic.values.map key) (rows.map key)

/-- The texts of the pool are those that the string column holds. -/
theorem Pooled.holds (h : Pooled ic) {texts : List (List UInt8)}
    (hholds : StringColumn.Holds ic.strings texts (rows.map key)) : Holds ic rows := by
  have htexts : ic.values.map key = texts := by
    rcases hholds.pool with hloaded | ⟨-, hname, -⟩
    · exact hloaded.codeToStr
    · exact absurd hname (by simp [IntColumn.strings])
  exact ⟨h, htexts ▸ hholds⟩

theorem Holds.values_nodup (h : Holds ic rows) : ic.values.Nodup :=
  List.Nodup.of_map key h.strings.nodup

/-- A row has the code of its value. -/
theorem Holds.row (h : Holds ic rows) {i : ℕ} (hi : rows[i]? = some val) :
    ∃ c, ic.codes[i]? = some c ∧ ic.values[c]? = some val := by
  obtain ⟨c, hc, hkey⟩ := h.strings.codes i (key val) (by rw [List.getElem?_map, hi]; rfl)
  obtain ⟨w, hw, heq⟩ := Option.map_eq_some_iff.mp (List.getElem?_map.symm.trans hkey)
  exact ⟨c, hc, key_injective heq ▸ hw⟩

theorem rowsWith_key (rows : List (BitVec 32)) (val : BitVec 32) :
    rowsWith (rows.map key) (key val) = rowsWith rows val := by
  rw [rowsWith, rowsWith, List.length_map]
  refine List.filter_congr fun i _ => decide_eq_decide.mpr ?_
  rw [List.getElem?_map, Option.map_eq_some_iff]
  constructor
  · rintro ⟨w, hw, heq⟩
    exact key_injective heq ▸ hw
  · exact fun hval => ⟨val, hval, rfl⟩

theorem Holds.get (h : Holds ic rows) (i : ℤ) :
    ic.get i = .ok (if 0 ≤ i then rows[i.toNat]? else none) := by
  have hnum : ic.numRows = rows.length := by
    have := h.strings.numRows
    rwa [List.length_map] at this
  rw [IntColumn.get]
  by_cases hi : 0 ≤ i ∧ i < ic.numRows
  · have hlt : i.toNat < rows.length := by omega
    obtain ⟨c, hc, hval⟩ := h.row (List.getElem?_eq_getElem hlt)
    have hpool : ic.pool[c]? = some rows[i.toNat] := by
      have hsize := (List.getElem?_eq_some_iff.mp hval).1
      rw [values, List.length_take] at hsize
      rwa [values, List.getElem?_take_of_lt (by omega)] at hval
    rw [if_pos hi, if_pos hi.1, hc, List.getElem?_eq_getElem hlt]
    simp only [checked, ok_bind, hpool]
    rfl
  · rw [if_neg hi]
    split_ifs with h0
    · rw [List.getElem?_eq_none (by omega)]
    · rfl

theorem Holds.whereEq (h : Holds ic rows) (val : BitVec 32) :
    ic.whereEq val = .ok (rowsWith rows val) := by
  have hstrings := h.strings.whereEq (key val)
  rw [StringColumn.whereEq, strings_loadPool, rowsWith_key,
    show ic.strings.strToCode = ic.valToCode from rfl] at hstrings
  rw [IntColumn.whereEq]
  cases hcode : ic.valToCode (key val) with
  | none =>
      rw [hcode] at hstrings
      exact congrArg Except.ok (congrArg Prod.snd (Except.ok.inj hstrings))
  | some target =>
      rw [hcode] at hstrings
      obtain ⟨found, hfound, hpair⟩ := bind_ok.mp hstrings
      have heq : found = rowsWith rows val := congrArg Prod.snd (Except.ok.inj hpair)
      exact heq ▸ hfound

theorem Holds.append (h : Holds ic rows) (val : BitVec 32) :
    ∃ ic', ic.append val = .ok ic' ∧ Holds ic' (rows ++ [val]) := by
  obtain ⟨sc, texts, happend, hholds⟩ := h.strings.append (key val)
  rw [← h.pooled.append] at happend
  cases hrun : ic.append val with
  | error e => exact absurd (hrun ▸ happend) (by simp [Functor.map, Except.map])
  | ok ic' =>
      rw [hrun] at happend
      cases happend
      rw [← List.map_singleton, ← List.map_append] at hholds
      exact ⟨ic', rfl, (h.pooled.append_pooled hrun).holds hholds⟩

theorem Holds.buildIndex (h : Holds ic rows) :
    ∃ ic', ic.buildIndex = .ok ic' ∧ Holds ic' rows := by
  obtain ⟨sc, hbuild, hholds⟩ := h.strings.buildIndex
  rw [← buildIndex_strings] at hbuild
  cases hrun : ic.buildIndex with
  | error e => exact absurd (hrun ▸ hbuild) (by simp [Functor.map, Except.map])
  | ok ic' =>
      rw [hrun] at hbuild
      cases hbuild
      exact ⟨ic', rfl, (h.pooled.buildIndex hrun).holds hholds⟩

theorem holds_new (initCap : ℕ) : Holds (new initCap) [] := by
  have hpooled : Pooled (new initCap) := ⟨List.length_replicate, Nat.zero_le _, Nat.succ_pos 63⟩
  exact hpooled.holds (StringColumn.holds_new initCap)

theorem Holds.dropIndex (h : Holds ic rows) : Holds ic.dropIndex rows := by
  have hfresh : StringColumn.Fresh ic.strings .dropIndex := trivial
  obtain ⟨_, _, hrun, hholds⟩ := h.strings.perform hfresh
  cases hrun
  have hpooled : Pooled ic.dropIndex := ⟨h.pooled.length, h.pooled.le, h.pooled.pos⟩
  exact hpooled.holds hholds

/-- The texts of the values that a column is built from. -/
def bulkKeys (b : Bulk (BitVec 32)) : Bulk (List UInt8) where
  codes := b.codes
  strings := b.strings.map key
  nonempty := b.nonempty
  inRange := by simpa using b.inRange
  distinct := b.distinct.map key_injective

theorem contents_bulkKeys (b : Bulk (BitVec 32)) :
    (bulkKeys b).contents = b.contents.map key := by
  rw [Bulk.contents, Bulk.contents, List.map_pmap]
  exact List.pmap_congr_left _ fun c _ _ _ => by simp [bulkKeys]

theorem buildFromCodes_strings (ic : IntColumn) (b : Bulk (BitVec 32)) :
    (ic.buildFromCodes b.codes b.strings).strings =
      ic.strings.buildFromCodes b.codes (b.strings.map key) := by
  simp [IntColumn.buildFromCodes, StringColumn.buildFromCodes, strings, values,
    register_eq_strings]

theorem Holds.buildFromCodes (h : Holds ic rows) (hindex : ic.hasIndex = false)
    (b : Bulk (BitVec 32)) : Holds (ic.buildFromCodes b.codes b.strings) b.contents := by
  have hfresh : StringColumn.Fresh ic.strings (.buildFromCodes (bulkKeys b)) := hindex
  obtain ⟨_, _, hrun, hholds⟩ := h.strings.perform hfresh
  cases hrun
  have hpool : 0 < b.strings.length := by
    obtain ⟨c, hc⟩ := List.exists_mem_of_ne_nil _ b.nonempty
    exact Nat.zero_lt_of_lt (b.inRange c hc)
  have hpooled : Pooled (ic.buildFromCodes b.codes b.strings) := ⟨rfl, le_rfl, hpool⟩
  apply hpooled.holds
  rw [buildFromCodes_strings, ← contents_bulkKeys]
  exact hholds

/-- An index that is kept answers with the rows of the value that had the code. -/
theorem Holds.stale_index (h : Holds ic rows) (hindex : ic.hasIndex = true)
    (b : Bulk (BitVec 32)) {c : ℕ} {old : BitVec 32} (hval : b.strings[c]? = some val)
    (hold : ic.values[c]? = some old) :
    (ic.buildFromCodes b.codes b.strings).whereEq val = .ok (rowsWith rows old) := by
  obtain ⟨-, hlookup⟩ := h.strings.index hindex
  have hkey : (ic.values.map key)[c]? = some (key old) := by
    rw [List.getElem?_map, hold]
    rfl
  have hcode : register b.strings 0 (fun _ => none) (key val) = some c := by
    rw [register_eq_strings, register_eq_some_iff (b.distinct.map key_injective),
      List.getElem?_map, hval]
    rfl
  have hkept : (ic.buildFromCodes b.codes b.strings).hasIndex = true := hindex
  rw [IntColumn.whereEq, show (ic.buildFromCodes b.codes b.strings).valToCode =
    register b.strings 0 fun _ => none from rfl, hcode]
  simp only [hkept, if_true]
  calc (ic.buildFromCodes b.codes b.strings).indexLookup c
      = ic.strings.indexLookup c := rfl
    _ = .ok (rowsOf ic.strings.codes c ic.strings.numRows) :=
        hlookup c (List.getElem?_eq_some_iff.mp hkey).1
    _ = .ok (rowsWith rows old) := by rw [h.strings.rowsOf_eq hkey, rowsWith_key]

/-! ## Runs -/

inductive Operation
  | append (val : BitVec 32)
  | buildFromCodes (b : Bulk (BitVec 32))
  | buildIndex
  | dropIndex
  | get (i : ℤ)
  | whereEq (val : BitVec 32)

/-- The effect of an operation on a column. -/
def perform (ic : IntColumn) : Operation → Except Fault IntColumn
  | .append val => ic.append val
  | .buildFromCodes b => .ok (ic.buildFromCodes b.codes b.strings)
  | .buildIndex => ic.buildIndex
  | .dropIndex => .ok ic.dropIndex
  | .get i => (fun _ => ic) <$> ic.get i
  | .whereEq val => (fun _ => ic) <$> ic.whereEq val

def step (ic : IntColumn) (operation : Operation) : Option IntColumn :=
  (perform ic operation).toOption

/-- What an operation does to the sequence that a column represents. -/
def follow (rows : List (BitVec 32)) : Operation → List (BitVec 32)
  | .append val => rows ++ [val]
  | .buildFromCodes b => b.contents
  | _ => rows

/-- A column is not built again while it has a valid index. -/
def Fresh (ic : IntColumn) : Operation → Prop
  | .buildFromCodes _ => ic.hasIndex = false
  | _ => True

/-- **What every operation keeps.** -/
theorem Holds.perform (h : Holds ic rows) {operation : Operation} (hfresh : Fresh ic operation) :
    ∃ ic', perform ic operation = .ok ic' ∧ Holds ic' (follow rows operation) := by
  cases operation with
  | append val => exact h.append val
  | buildFromCodes b => exact ⟨_, rfl, h.buildFromCodes hfresh b⟩
  | buildIndex => exact h.buildIndex
  | dropIndex => exact ⟨_, rfl, h.dropIndex⟩
  | get i => exact ⟨ic, by rw [IntColumn.perform, h.get i]; rfl, h⟩
  | whereEq val => exact ⟨ic, by rw [IntColumn.perform, h.whereEq val]; rfl, h⟩

theorem Holds.run (h : Holds ic rows) {operations : List Operation}
    (hfresh : Along step Fresh ic operations) :
    ∃ ic', run step ic operations = some ic' ∧ Holds ic' (operations.foldl follow rows) := by
  induction operations generalizing ic rows with
  | nil => exact ⟨ic, rfl, h⟩
  | cons operation operations ih =>
      obtain ⟨ic1, hperform, h1⟩ := h.perform hfresh.1
      have hstep : step ic operation = some ic1 := by
        rw [step, hperform]
        rfl
      have hrest : Along step Fresh ic1 operations := by
        have := hfresh.2
        rwa [hstep] at this
      obtain ⟨ic', hrun, h'⟩ := ih h1 hrest
      exact ⟨ic', run_cons.mpr ⟨ic1, hstep, hrun⟩, h'⟩

/-- The column is a vector of the integers `rows`: `get` returns them, the pool has each
of them once, and `where-eq` returns the rows that hold a value. -/
structure Faithful (ic : IntColumn) (rows : List (BitVec 32)) : Prop where
  get : ∀ i : ℤ, ic.get i = .ok (if 0 ≤ i then rows[i.toNat]? else none)
  pool : ic.values.Nodup ∧ ∀ val ∈ rows, val ∈ ic.values
  whereEq : ∀ val, ic.whereEq val = .ok (rowsWith rows val)

theorem Holds.faithful (h : Holds ic rows) : Faithful ic rows := by
  refine ⟨h.get, ⟨h.values_nodup, fun val hval => ?_⟩, h.whereEq⟩
  obtain ⟨i, hi⟩ := List.getElem?_of_mem hval
  obtain ⟨c, -, hc⟩ := h.row hi
  exact List.mem_of_getElem? hc

/-- **An integer column is a faithful vector of integers**, after any operations, if it
was never built again while it had a valid index. -/
theorem intColumn_faithful (initCap : ℕ) (operations : List Operation)
    (hfresh : Along step Fresh (new initCap) operations) :
    ∃ ic, run step (new initCap) operations = some ic ∧
      Faithful ic (operations.foldl follow []) := by
  obtain ⟨ic, hrun, h⟩ := (holds_new initCap).run hfresh
  exact ⟨ic, hrun, h.faithful⟩

/-- Two rows, with the value `7`. -/
def twoRows : Bulk (BitVec 32) := ⟨[0, 0], [7], by decide, by decide, by decide⟩

theorem oneRow_nonempty : ([0] : List ℕ) ≠ [] := List.cons_ne_nil 0 []

/-- One row, with the value `2`. -/
def oneRow : Bulk (BitVec 32) where
  codes := [0]
  strings := [2]
  nonempty := oneRow_nonempty
  inRange := by decide
  distinct := by decide

theorem intColumn_faithful_small : ∃ ic, run step (new 0)
    [.append 7, .buildIndex, .dropIndex, .buildFromCodes twoRows, .buildIndex, .get 1] = some ic ∧
      Faithful ic [7, 7] :=
  intColumn_faithful 0
    [.append 7, .buildIndex, .dropIndex, .buildFromCodes twoRows, .buildIndex, .get 1]
    ⟨trivial, trivial, trivial, rfl, trivial, trivial, trivial⟩

/-- The index of two rows is still valid when there is one row, with another value:
`where-eq` returns both of them. -/
theorem not_faithful_rebuilt : ∃ ic, run step (new 0)
    [.buildFromCodes twoRows, .buildIndex, .buildFromCodes oneRow] = some ic ∧
      ic.whereEq 2 = .ok [0, 1] ∧ ¬Faithful ic [2] := by
  have hfresh : Along step Fresh (new 0) [.buildFromCodes twoRows, .buildIndex] :=
    ⟨rfl, trivial, trivial⟩
  obtain ⟨ic, hrun, h⟩ := (holds_new 0).run hfresh
  cases hrun
  have hnew : oneRow.strings[0]? = some 2 := rfl
  have hwhere := h.stale_index rfl oneRow hnew rfl
  refine ⟨_, rfl, hwhere, fun hfaithful => ?_⟩
  have hlist : rowsWith [7, 7] 7 = rowsWith [2] 2 :=
    Except.ok.inj (hwhere.symm.trans (hfaithful.whereEq 2))
  exact absurd hlist (by decide)

end IntColumn

end Lush.Datatable
