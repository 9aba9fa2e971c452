import Lush.LispArrays.Emission
import Lush.LispArrays.Places

/-!
# Reading one token

`local_bread` reads the token of a node by allocating a cell (`newCell`) and reading its
fields one after the other (`localBread_node`), unless the node is an array with
`MAXDIMS` dimensions, which the reader refuses (`localBread_refuses`).
-/

namespace Lush.LispArrays

open Arrays Strides
open Binary (readCard24 readBuffer readBuffer_append memory swapBuffer card24)
open Backpatch (Flag)

variable {swapflag ret : Bool} {fuel : ℕ} {pp : Slot} {r r' : Reader} {ts : List Token}
  {rest : List UInt8}

@[simp] theorem bytesOf_nil : bytesOf swapflag [] = [] := rfl

@[simp] theorem bytesOf_cons (t : Token) (ts : List Token) :
    bytesOf swapflag (t :: ts) = t.bytes swapflag ++ bytesOf swapflag ts := rfl

@[simp] theorem bytesOf_append (ts us : List Token) :
    bytesOf swapflag (ts ++ us) = bytesOf swapflag ts ++ bytesOf swapflag us := by
  simp [bytesOf]

theorem length_le_bytesOf (swapflag : Bool) (ts : List Token) :
    ts.length ≤ (bytesOf swapflag ts).length := by
  induction ts with
  | nil => simp
  | cons t ts ih =>
      have : 1 ≤ (t.bytes swapflag).length := by cases t <;> simp [Token.bytes]
      simp only [bytesOf_cons, List.length_append, List.length_cons]
      omega

/-! ## Numbers in the file -/

theorem readCard24_mod (x : ℕ) (rest : List UInt8) :
    readCard24 (card24 x ++ rest) = .ok (x % 16777216, rest) := by
  have hvalue : (x / 65536 % 256 * 256 + x / 256 % 256) * 256 + x % 256 = x % 16777216 := by omega
  simp only [card24, List.cons_append, List.nil_append, readCard24, UInt8.toNat_ofNat']
  exact congrArg (fun n => Except.ok (n, rest)) hvalue

theorem readCard24_int24 (x : ℤ) (rest : List UInt8) :
    readCard24 (int24 x ++ rest) = .ok ((x % 16777216).toNat, rest) := by
  rw [int24, readCard24_mod, Nat.mod_eq_of_lt (by omega)]

theorem readCard32_card32 {d : ℤ} (h0 : 0 ≤ d) (hd : d ≤ intMax) (rest : List UInt8) :
    readCard32 (card32 d ++ rest) = .ok (d, rest) := by
  obtain ⟨n, rfl⟩ := Int.eq_ofNat_of_zero_le h0
  have hn : n < 2147483648 := by
    rw [intMax] at hd
    omega
  have hmod : ((n : ℤ) % 4294967296).toNat = n := by omega
  have hvalue : ((n / 16777216 % 256 * 256 + n / 65536 % 256) * 256 + n / 256 % 256) * 256 +
      n % 256 = n := by omega
  have hint : (BitVec.ofNat 32 n).toInt = n := by
    rw [BitVec.toInt_eq_toNat_of_lt]
    · rw [BitVec.toNat_ofNat, Nat.mod_eq_of_lt (by omega)]
    · rw [BitVec.toNat_ofNat, Nat.mod_eq_of_lt (by omega)]
      omega
  simp only [card32, hmod, List.cons_append, List.nil_append, readCard32, UInt8.toNat_ofNat',
    Nat.reducePow, hvalue, hint]

theorem readDims_card32 {dims : List ℤ} (h : ∀ d ∈ dims, 0 ≤ d ∧ d ≤ intMax)
    (rest : List UInt8) : readDims dims.length (dims.flatMap card32 ++ rest) = .ok (dims, rest) := by
  induction dims with
  | nil => rfl
  | cons d dims ih =>
      obtain ⟨hd, hdims⟩ := List.forall_mem_cons.mp h
      rw [List.length_cons, readDims, List.flatMap_cons, List.append_assoc,
        readCard32_card32 hd.1 hd.2]
      simp only [bind, Except.bind, ih hdims]

/-! ## Cells -/

/-- The dimensions of an array, if it has any, are fewer than the reader allows. -/
def Readable {ρ : Type} : Node ρ → Prop
  | .array ind _ => ind.axes.length < maxDims
  | _ => True

/-- The index of the array that is read. -/
def copyIndex (ind : Index) : Index :=
  if ind.unsized then newIndex 0 else contiguous (ind.axes.map Axis.dim)

/-- The kind of the cell that a node is read as. -/
def copyKind {ρ : Type} : Node ρ → Kind
  | .cons _ _ => .cons
  | .number x => .number x
  | .array ind data => .array (copyIndex ind) (elements ind data).length

/-- The new cell for a node. -/
def newCell {ρ : Type} : Node ρ → Node Word
  | .cons _ _ => .cons .null .null
  | .number x => .number x
  | .array ind data => .array (copyIndex ind) (List.replicate (elements ind data).length .null)

/-- The places of the fields of a new cell, with the value of `ret` for each. -/
def newPlaces {ρ : Type} (n : ℕ) : Node ρ → List (Bool × Slot)
  | .cons _ _ => [(true, .field n 0), (false, .field n 1)]
  | .number _ => []
  | .array ind data => (List.range (elements ind data).length).map fun i => (true, .field n i)

/-- References are read into places, one after the other. -/
def breadAll (swapflag : Bool) (fuel : ℕ) (xs : List (Bool × Slot)) (r : Reader) :
    Except Fault Reader :=
  xs.foldlM (fun r x => do
    let (_, r) ← localBread swapflag fuel x.1 x.2 r
    pure r) r

section

variable {ρ : Type} (o : Node ρ)

@[simp] theorem kind_newCell : (newCell o).kind = copyKind o := by
  cases o <;> simp [newCell, copyKind, Node.kind]

theorem newPlaces_snd (n : ℕ) :
    (newPlaces n o).map Prod.snd = (List.range o.children.length).map (Slot.field n) := by
  cases o with
  | cons car cdr => rfl
  | number x => rfl
  | array ind data => simp [newPlaces, Node.children]

theorem length_newPlaces (n : ℕ) : (newPlaces n o).length = o.children.length := by
  have hlen := congrArg List.length (newPlaces_snd o n)
  simpa using hlen

theorem size_copyKind : (copyKind o).size = o.children.length := by
  cases o <;> rfl

end

@[simp] theorem breadAll_nil : breadAll swapflag fuel [] r = .ok r := rfl

theorem breadAll_cons (x : Bool × Slot) (xs : List (Bool × Slot)) :
    breadAll swapflag fuel (x :: xs) r =
      (localBread swapflag fuel x.1 x.2 r >>= fun y => breadAll swapflag fuel xs y.2) := by
  rw [breadAll, List.foldlM_cons]
  cases localBread swapflag fuel x.1 x.2 r <;> rfl

theorem breadAll_cons_ok {x : Bool × Slot} {xs : List (Bool × Slot)} :
    breadAll swapflag fuel (x :: xs) r = .ok r' ↔ ∃ flag r1,
      localBread swapflag fuel x.1 x.2 r = .ok (flag, r1) ∧
        breadAll swapflag fuel xs r1 = .ok r' := by
  rw [breadAll_cons]
  cases localBread swapflag fuel x.1 x.2 r with
  | error e => simp [Bind.bind, Except.bind]
  | ok y =>
      obtain ⟨flag, r1⟩ := y
      simp [Bind.bind, Except.bind]

/-! ## Tokens -/

theorem localBread_nil (hinput : r.input = bytesOf swapflag (.nil :: ts) ++ rest) :
    localBread swapflag (fuel + 1) ret pp r =
      .ok (false, { r with input := bytesOf swapflag ts ++ rest }.put pp .null) := by
  simp [localBread, hinput, Token.bytes, Bind.bind, Except.bind]

theorem localBread_ref {k : ℕ} (hinput : r.input = bytesOf swapflag (.ref k :: ts) ++ rest)
    {w : Word} {f : Flag} (hreloc : r.reloc[k % 16777216]? = some (w, f)) :
    localBread swapflag (fuel + 1) ret pp r =
      if f = .defd then .ok (false, { r with input := bytesOf swapflag ts ++ rest }.put pp w)
      else .ok (ret, ({ r with input := bytesOf swapflag ts ++ rest }.put pp w).setReloc
        (k % 16777216) (.slot pp) .refd) := by
  simp [localBread, hinput, Token.bytes, Bind.bind, Except.bind, readCard24_mod, hreloc]

theorem localBread_ref_error {k : ℕ}
    (hinput : r.input = bytesOf swapflag (.ref k :: ts) ++ rest)
    (hreloc : r.reloc[k % 16777216]? = none) : localBread swapflag (fuel + 1) ret pp r =
      .error (.error "corrupted binary file (illegal ref)") := by
  simp [localBread, hinput, Token.bytes, Bind.bind, Except.bind, readCard24_mod, hreloc]

/-- The end of a definition: the object is stored in the table, and on its thread. -/
def define (pp : Slot) (k : ℕ) (h : Word) (f : Flag) (r : Reader) :
    Except Fault (Bool × Reader) := do
  let p ← r.deref pp
  let r ← if f = .refd then defineRefdReloc p (places r + 3) h r else .ok r
  let p ← r.deref pp
  .ok (false, r.setReloc k p .defd)

theorem localBread_defn {k : ℕ} (hinput : r.input = bytesOf swapflag (.defn k :: ts) ++ rest)
    {r1 : Reader} (hbody : localBread swapflag fuel true pp
      { r with input := bytesOf swapflag ts ++ rest } = .ok (false, r1)) {h : Word} {f : Flag}
    (hreloc : r1.reloc[k % 16777216]? = some (h, f)) (hf : f ≠ .defd) :
    localBread swapflag (fuel + 1) ret pp r = define pp (k % 16777216) h f r1 := by
  simp only [localBread, hinput, bytesOf_cons, Token.bytes, List.cons_append, List.append_assoc,
    Binary.readCard8_cons, readCard24_mod, Bind.bind, Except.bind]
  simp only [UInt8.reduceToNat, hbody, hreloc, hf, if_false, Bool.false_eq_true]
  rfl

/-- What a definition that is read goes through. -/
theorem localBread_defn_ok {k : ℕ} {flag : Bool}
    (hinput : r.input = bytesOf swapflag (.defn k :: ts) ++ rest)
    (hr : localBread swapflag (fuel + 1) ret pp r = .ok (flag, r')) :
    ∃ unresolved r1 h f, localBread swapflag fuel true pp
        { r with input := bytesOf swapflag ts ++ rest } = .ok (unresolved, r1) ∧
      r1.reloc[k % 16777216]? = some (h, f) ∧
      define pp (k % 16777216) h f r1 = .ok (flag, r') := by
  simp only [localBread, hinput, bytesOf_cons, Token.bytes, List.cons_append, List.append_assoc,
    Binary.readCard8_cons, UInt8.reduceToNat] at hr
  obtain ⟨_, htok, hr⟩ := bind_ok.mp hr
  cases htok
  obtain ⟨_, hk, hr⟩ := bind_ok.mp hr
  simp only [readCard24_mod] at hk
  cases hk
  obtain ⟨⟨unresolved, r1⟩, hbody, hr⟩ := bind_ok.mp hr
  simp only at hr
  split_ifs at hr
  split at hr
  · cases hr
  · rename_i h f hreloc
    by_cases hf : f = .defd
    · rw [if_pos hf] at hr
      cases hr
    · rw [if_neg hf] at hr
      exact ⟨unresolved, r1, h, f, hbody, hreloc, hr⟩

/-- On the way down a list every reference counts as resolved. -/
theorem localBread_flag : ∀ (fuel : ℕ) {pp : Slot} {r r' : Reader} {flag : Bool},
    localBread swapflag fuel false pp r = .ok (flag, r') → flag = false := by
  intro fuel
  induction fuel with
  | zero =>
      intro pp r r' flag h
      rw [localBread_zero] at h
      cases h
  | succ fuel ih =>
      intro pp r r' flag h
      rw [localBread] at h
      obtain ⟨⟨tok, input⟩, -, h⟩ := bind_ok.mp h
      simp only at h
      split at h
      · obtain ⟨_, -, h⟩ := bind_ok.mp h
        obtain ⟨_, -, h⟩ := bind_ok.mp h
        split_ifs at h
        split at h
        · cases h
        · rename_i _ f _
          by_cases hf : f = .defd
          · rw [if_pos hf] at h
            cases h
          · rw [if_neg hf] at h
            obtain ⟨_, -, h⟩ := bind_ok.mp h
            split_ifs at h <;>
            · obtain ⟨_, -, h⟩ := bind_ok.mp h
              obtain ⟨_, -, h⟩ := bind_ok.mp h
              cases h
              rfl
      · obtain ⟨_, -, h⟩ := bind_ok.mp h
        split at h
        · cases h
        · split_ifs at h <;> cases h <;> rfl
      · cases h
        rfl
      · obtain ⟨_, -, h⟩ := bind_ok.mp h
        exact ih h
      · obtain ⟨_, -, h⟩ := bind_ok.mp h
        cases h
        rfl
      · obtain ⟨_, -, h⟩ := bind_ok.mp h
        split_ifs at h
        · cases h
          rfl
        · obtain ⟨_, -, h⟩ := bind_ok.mp h
          split at h
          · cases h
          · obtain ⟨_, -, h⟩ := bind_ok.mp h
            cases h
            rfl
      · split_ifs at h

/-! ## Nodes -/

variable {ρ : Type} {o : Node ρ}

/-- **The token of a node** is read as a new cell, and its fields after it. -/
theorem localBread_node (hlegal : o.Legal) (hwritable : Writable o) (hreadable : Readable o)
    (hinput : r.input = bytesOf swapflag (nodeToken o :: ts) ++ rest) :
    localBread swapflag (fuel + 1) ret pp r =
      (breadAll swapflag fuel (newPlaces r.cells.length o)
        ({ r with input := bytesOf swapflag ts ++ rest }.alloc pp (newCell o))).map (false, ·) := by
  cases o with
  | cons car cdr =>
      have hread : localBread swapflag (fuel + 1) ret pp r =
          (localBread swapflag fuel true (.field r.cells.length 0)
            ({ r with input := bytesOf swapflag ts ++ rest }.alloc pp (.cons .null .null)) >>=
          fun y => localBread swapflag fuel false (.field r.cells.length 1) y.2) := by
        simp [localBread, hinput, nodeToken, Token.bytes, Bind.bind, Except.bind]
      rw [hread, newPlaces, breadAll_cons, newCell]
      cases localBread swapflag fuel true (.field r.cells.length 0)
          ({ r with input := bytesOf swapflag ts ++ rest }.alloc pp (.cons .null .null)) with
      | error e => rfl
      | ok y =>
          show localBread swapflag fuel false _ y.2 = Except.map _ (breadAll swapflag fuel [_] y.2)
          rw [breadAll_cons]
          cases hlast : localBread swapflag fuel false (.field r.cells.length 1) y.2 with
          | error e => simp [Bind.bind, Except.bind, Except.map]
          | ok z =>
              obtain ⟨flag, r2⟩ := z
              obtain rfl := localBread_flag fuel hlast
              simp [Bind.bind, Except.bind, Except.map]
  | number x =>
      have hbuffer (rest' : List UInt8) :
          readBuffer 8 (swapBuffer swapflag (memory swapflag x) ++ rest') =
            .ok (swapBuffer swapflag (memory swapflag x), rest') := by
        have hread := readBuffer_append (swapBuffer swapflag (memory swapflag x)) rest'
        rwa [Binary.length_swapBuffer, Binary.length_memory] at hread
      simp [localBread, hinput, nodeToken, Token.bytes, Bind.bind, Except.bind, hbuffer, newPlaces,
        newCell, Except.map]
  | array ind data =>
      have hlegal' : Index.Legal data.length ind := hlegal
      rcases hu : ind.unsized with _ | _
      · have hdims : ∀ d ∈ ind.axes.map Axis.dim, 0 < d := List.forall_mem_map.mpr hlegal'.positive
        have hlen : (elements ind data).length = (ind.axes.map Axis.dim).prod.toNat := by
          rw [length_elements hlegal'.positive (hlegal'.inside hu) hu, ← count_eq_prod
            hlegal'.positive, Int.toNat_natCast]
        have hwrite : ∀ d ∈ ind.axes.map Axis.dim, 0 ≤ d ∧ d ≤ intMax := by
          intro d hd
          refine ⟨(hdims d hd).le, ?_⟩
          have hw : ∀ d ∈ (dimensions ind).getD [], d ≤ intMax := hwritable
          exact hw d (by simpa [dimensions, hu] using hd)
        have hfew : ind.axes.length < maxDims := hreadable
        have hndim : (ndimOf ind % 16777216).toNat = (ind.axes.map Axis.dim).length := by
          rw [ndimOf, hu, List.length_map]
          rw [maxDims] at hfew
          simp only [Bool.false_eq_true, if_false]
          omega
        have hfew' : (ind.axes.map Axis.dim).length < maxDims := by rwa [List.length_map]
        have hne : (ind.axes.map Axis.dim).length ≠ 16777215 := by
          rw [maxDims] at hfew'
          omega
        have hdimension := indexDimension_new hfew'.le hdims
        have htoken : nodeToken (.array ind data) =
            .array (ndimOf ind) (ind.axes.map Axis.dim) := by
          simp [nodeToken, dimensions, hu]
        have hread : localBread swapflag (fuel + 1) ret pp r =
            ((List.range (ind.axes.map Axis.dim).prod.toNat).foldlM (fun r' i => do
              let (_, r') ← localBread swapflag fuel true (.field r.cells.length i) r'
              pure r') ({ r with input := bytesOf swapflag ts ++ rest }.alloc pp
                (.array (contiguous (ind.axes.map Axis.dim))
                  (List.replicate (ind.axes.map Axis.dim).prod.toNat .null)))).map (false, ·) := by
          rw [htoken] at hinput
          simp only [localBread, hinput, bytesOf_cons, Token.bytes, List.cons_append,
            List.append_assoc, Binary.readCard8_cons, UInt8.reduceToNat, bind, Except.bind,
            readCard24_int24, hndim, hne, hfew', if_true, if_false, readDims_card32 hwrite,
            hdimension]
          rfl
        rw [hread, newPlaces, newCell, hlen, copyIndex, hu, breadAll, List.foldlM_map]
        rfl
      · have hnone : elements ind data = [] := by simp [elements, hu]
        have htoken : nodeToken (.array ind data) = .array (-1) [] := by
          simp [nodeToken, dimensions, hu, ndimOf]
        rw [htoken] at hinput
        simp [localBread, hinput, Token.bytes, Bind.bind, Except.bind, readCard24_int24,
          newPlaces, newCell, hnone, copyIndex, hu, Except.map]

/-- **An array with too many dimensions** is refused. -/
theorem localBread_refuses (hlegal : o.Legal) (hreadable : ¬ Readable o)
    (hinput : r.input = bytesOf swapflag (nodeToken o :: ts) ++ rest) :
    localBread swapflag (fuel + 1) ret pp r = .error (.error "corrupted binary file") := by
  cases o with
  | cons car cdr => exact absurd trivial hreadable
  | number x => exact absurd trivial hreadable
  | array ind data =>
      have hlegal' : Index.Legal data.length ind := hlegal
      have hmany : ¬ ind.axes.length < maxDims := hreadable
      have hmax := hlegal'.length
      have hu : ind.unsized = false := by
        cases hu : ind.unsized with
        | false => rfl
        | true =>
            rw [hlegal'.unsized hu] at hmany
            exact absurd (by decide) hmany
      have hndim : (ndimOf ind % 16777216).toNat = ind.axes.length := by
        rw [ndimOf, hu]
        rw [maxDims] at hmax
        simp only [Bool.false_eq_true, if_false]
        omega
      have hne : ind.axes.length ≠ 16777215 := by
        rw [maxDims] at hmax
        omega
      simp [localBread, hinput, nodeToken, Token.bytes, Bind.bind, Except.bind, readCard24_int24,
        hndim, hne, hmany]

end Lush.LispArrays
