import Lush.Trees

/-!
# Hash values

`hash_value` goes through a list with a slow pointer and a stack, as `eq_test`
does.  On the values that are used as keys, which are built from numbers,
strings, symbols and cells without a cycle, neither cuts anything off, and the
hash value is a function of the tree that the key unfolds to (`hashValue_ok`).

`eq_test` compares numbers with `==`, and `hash_value` uses their bits.  So two
keys that are equal for `eq_test` may have different hash values, but only if
they hold zeros of different signs at the same place (`hash_eq_or_zeros`).
-/

namespace Lush

variable {ν : Type}

/-! ## The code -/

/-- The hash value of a name, `search_by_name`. -/
def symbolHash (name : List UInt8) : BitVec 64 :=
  name.foldl (fun hash c => (hash <<< 6 ||| hash >>> 58) ^^^ c.toBitVec.setWidth 64) 0#64

/-- `string_hash`. -/
def stringHash (s : List UInt8) : BitVec 64 :=
  s.foldl (fun x c => (x <<< 6 ||| (x &&& 0xfc000000#64) >>> 26) ^^^ c.toBitVec.setWidth 64)
    0x12345678#64

/-- The first line after the label `again`. -/
def stir (x : BitVec 64) : BitVec 64 :=
  x <<< 1 ||| (x >>> 63 ^^^ 1#64)

/-- The case of a number: both halves of the bits. -/
def numberHash (x : BitVec 64) (number : BitVec 64) : BitVec 64 :=
  x ^^^ 0x1010#64 ^^^ (number.setWidth 32).setWidth 64 ^^^ number >>> 32

/-- `hash_value` from the label `again` on; `stack` holds what `recur_push_ok`
has recorded for `hash_value`.  What follows for an object without a hash
function depends on its address, and is not modelled. -/
def hashLoop [DecidableEq ν] (heap : ν → Object (Option ν)) :
    ℕ → List (Option ν) → Option ν → Bool → BitVec 64 → Option ν → Except Fault (BitVec 64)
  | 0, _, _, _, _, _ => .error .depth
  | fuel + 1, stack, slow, toggle, x, p =>
      match p with
      | none => .ok (stir x)
      | some a =>
          match heap a with
          | .number number => .ok (numberHash (stir x) number)
          | .cons car cdr => do
              let x := stir x ^^^ 0x2020#64
              let x ← (if car ∈ stack then .ok x
                else (hashLoop heap fuel (car :: stack) car false 0 car).map (x ^^^ ·))
              if cdr = slow then
                .ok x
              else
                let slow ← (if toggle then readCdr heap slow else .ok slow)
                hashLoop heap fuel stack slow (!toggle) x cdr
          | .string s => .ok (stir x ^^^ 0x3030#64 ^^^ stringHash s.bytes)
          | .symbol name => .ok (stir x ^^^ 0x3030#64 ^^^ symbolHash name.bytes)
          | .zombie => .error .unmodelled

/-- `hash_value`, with the bound of `eq_test`. -/
def hashValue [DecidableEq ν] [Fintype ν] (heap : ν → Object (Option ν)) (p : Option ν) :
    Except Fault (BitVec 64) :=
  hashLoop heap ((Fintype.card ν + 1) * (2 * Fintype.card ν + 3)) [] p false 0 p

/-! ## Trees -/

/-- The hash value of a tree, from the value accumulated before it. -/
def Tree.hash : Tree → BitVec 64 → BitVec 64
  | .nil, x => stir x
  | .number b, x => numberHash (stir x) b
  | .string s, x => stir x ^^^ 0x3030#64 ^^^ stringHash s
  | .symbol name, x => stir x ^^^ 0x3030#64 ^^^ symbolHash name
  | .cons car cdr, x => cdr.hash (stir x ^^^ 0x2020#64 ^^^ car.hash 0)

section Reads

variable {heap : ν → Object (Option ν)} {p q : Option ν} {t u : Tree}

/-! ## The hash value of a tree -/

/-- **On a value without a cycle, the loop hashes its tree.** -/
theorem hashLoop_ok [DecidableEq ν] (h : Reads heap p t) {fuel : ℕ} {stack : List (Option ν)}
    {slow : Option ν} {toggle : Bool} (x : BitVec 64) (hcursor : Cursor heap stack slow p)
    (hfuel : t.height < fuel) :
    hashLoop heap fuel stack slow toggle x p = .ok (t.hash x) := by
  induction h generalizing fuel stack slow toggle x with
  | nil =>
      obtain ⟨fuel, rfl⟩ := Nat.exists_eq_add_of_lt hfuel
      rfl
  | number ha | string ha | symbol ha =>
      obtain ⟨fuel, rfl⟩ := Nat.exists_eq_add_of_lt hfuel
      simp only [hashLoop, ha, Tree.hash]
  | @cons a car cdr t t' ha _ _ ihcar ihcdr =>
      obtain ⟨fuel, rfl⟩ : ∃ k, fuel = k + 1 := ⟨fuel - 1, by omega⟩
      simp only [Tree.height] at hfuel
      obtain ⟨hmem, hslow⟩ := hcursor.uncut ha
      obtain ⟨slow', hread, hnext⟩ := hcursor.next ha toggle
      have hcar : hashLoop heap fuel (car :: stack) car false 0 car = .ok (t.hash 0) :=
        ihcar 0 (hcursor.enter ha) (by omega)
      have hcdr : ∀ y, hashLoop heap fuel stack slow' (!toggle) y cdr = .ok (t'.hash y) :=
        fun y => ihcdr y hnext (by omega)
      simp only [hashLoop, ha, if_neg hmem, if_neg hslow, hcar, hread, Except.map, Bind.bind,
        Except.bind, hcdr, Tree.hash]

/-- **The hash value of a value without a cycle is that of its tree.** -/
theorem hashValue_ok [DecidableEq ν] [Fintype ν] (h : Reads heap p t) :
    hashValue heap p = .ok (t.hash 0) := by
  refine hashLoop_ok h 0 (.start h.acyclic) ?_
  have hheight : t.height ≤ Fintype.card ν := by
    simpa using h.height_le List.nodup_nil (by simp)
  have hsucc : (Fintype.card ν + 1) * (2 * Fintype.card ν + 3) =
      Fintype.card ν * (2 * Fintype.card ν + 3) + (2 * Fintype.card ν + 3) := Nat.succ_mul _ _
  omega

/-! ## Equal keys -/

/-- The two structures hold zeros of different signs at the same place. -/
def Zeros (heap : ν → Object (Option ν)) (p q : Option ν) : Prop :=
  ∃ path a b x y, follow heap p path = some (some a) ∧ heap a = .number x ∧
    follow heap q path = some (some b) ∧ heap b = .number y ∧
    isZero x = true ∧ isZero y = true ∧ x ≠ y

theorem Zeros.field {a b : ν} {car cdr car' cdr' : Option ν} (ha : heap a = .cons car cdr)
    (hb : heap b = .cons car' cdr') (h : Zeros heap car car' ∨ Zeros heap cdr cdr') :
    Zeros heap (some a) (some b) := by
  rcases h with ⟨path, c, d, x, y, hc, hx, hd, h⟩ | ⟨path, c, d, x, y, hc, hx, hd, h⟩
  · refine ⟨.car :: path, c, d, x, y, ?_, hx, ?_, h⟩
    · simp [follow_some_cons, ha, Object.field, hc]
    · simp [follow_some_cons, hb, Object.field, hd]
  · refine ⟨.cdr :: path, c, d, x, y, ?_, hx, ?_, h⟩
    · simp [follow_some_cons, ha, Object.field, hc]
    · simp [follow_some_cons, hb, Object.field, hd]

/-- **Equal values unfold to the same tree, but for the signs of zeros.** -/
theorem Reads.eq_or_zeros (h : Reads heap p t) (h' : Reads heap q u) (hagree : Agree heap p q) :
    t = u ∨ Zeros heap p q := by
  induction h generalizing q u with
  | nil =>
      rcases agreeAt_nil.mp (hagree []) with rfl | ⟨a, b, ha, -, -⟩
      · exact Or.inl (Reads.nil.unique h')
      · simp at ha
  | @number a x ha =>
      rcases agreeAt_nil.mp (hagree []) with rfl | ⟨a', b, ha', rfl, hab⟩
      · exact Or.inl ((Reads.number ha).unique h')
      · cases ha'
        cases h' with
        | @number _ y hb =>
            rw [ha, hb] at hab
            by_cases hxy : x = y
            · exact Or.inl (by rw [hxy])
            · have hzeros : isZero x = true ∧ isZero y = true := by
                simp only [Object.Alike, realEq, Bool.and_eq_true, Bool.or_eq_true,
                  beq_iff_eq] at hab
                exact hab.2.resolve_left hxy
              exact Or.inr ⟨[], a, b, x, y, by simp, ha, by simp, hb, hzeros.1, hzeros.2, hxy⟩
        | string hb | symbol hb | cons hb _ _ => simp [ha, hb, Object.Alike] at hab
  | @string a s ha =>
      rcases agreeAt_nil.mp (hagree []) with rfl | ⟨a', b, ha', rfl, hab⟩
      · exact Or.inl ((Reads.string ha).unique h')
      · cases ha'
        cases h' with
        | string hb =>
            rw [ha, hb] at hab
            exact Or.inl (by rw [show s = _ from hab])
        | number hb | symbol hb | cons hb _ _ => simp [ha, hb, Object.Alike] at hab
  | @symbol a name ha =>
      rcases agreeAt_nil.mp (hagree []) with rfl | ⟨a', b, ha', rfl, hab⟩
      · exact Or.inl ((Reads.symbol ha).unique h')
      · cases ha'
        simp [ha, Object.Alike] at hab
  | @cons a car cdr t t' ha hcar hcdr ihcar ihcdr =>
      rcases agreeAt_nil.mp (hagree []) with rfl | ⟨a', b, ha', rfl, hab⟩
      · exact Or.inl ((Reads.cons ha hcar hcdr).unique h')
      · cases ha'
        cases h' with
        | @cons _ car' cdr' _ _ hb h1 h2 =>
            have hfields := fun path => agreeAt_cons ha hb path
            rcases ihcar h1 fun path => (hfields path).1.mp (hagree _) with rfl | hz
            · rcases ihcdr h2 fun path => (hfields path).2.mp (hagree _) with rfl | hz
              · exact Or.inl rfl
              · exact Or.inr (.field ha hb (Or.inr hz))
            · exact Or.inr (.field ha hb (Or.inl hz))
        | number hb | string hb | symbol hb => simp [ha, hb, Object.Alike] at hab

end Reads

end Lush
