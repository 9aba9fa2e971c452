import Lush.Object
import Lush.Library.Chase

/-!
# Equality of Lisp objects

`eq_test` compares two lists by following them side by side.  Two devices keep
it from running forever, and both look at the first list only: a slow pointer,
which goes along the `Cdr` chain at half the speed, and the stack of the cells
whose `Car` is being compared.

So the result depends on the part of the first list that is not cut off
(`Watched`): `eq_test` returns true exactly when no difference can be seen there
(`eqLoop_ok`).
-/

namespace Lush

open Chase

variable {ν : Type}

/-! ## Numbers -/

/-- The bits below the sign are above those of the infinity. -/
def isNaN (x : BitVec 64) : Bool :=
  0x7ff0000000000000#64 < x &&& 0x7fffffffffffffff#64

/-- Both zeros. -/
def isZero (x : BitVec 64) : Bool :=
  x &&& 0x7fffffffffffffff#64 = 0#64

/-- The comparison `==` of two `real`. -/
def realEq (x y : BitVec 64) : Bool :=
  !isNaN x && !isNaN y && (x == y || (isZero x && isZero y))

theorem realEq_comm (x y : BitVec 64) : realEq x y = realEq y x := by
  unfold realEq
  rw [Bool.and_comm (!isNaN x), Bool.and_comm (isZero x), BEq.comm]

theorem realEq_trans {x y z : BitVec 64} (hxy : realEq x y = true) (hyz : realEq y z = true) :
    realEq x z = true := by
  simp only [realEq, Bool.and_eq_true, Bool.or_eq_true, beq_iff_eq] at hxy hyz ⊢
  obtain ⟨⟨hx, -⟩, hxy⟩ := hxy
  obtain ⟨⟨-, hz⟩, hyz⟩ := hyz
  refine ⟨⟨hx, hz⟩, ?_⟩
  rcases hxy with rfl | ⟨hx0, hy0⟩
  · exact hyz
  · rcases hyz with rfl | ⟨-, hz0⟩
    exacts [Or.inr ⟨hx0, hy0⟩, Or.inr ⟨hx0, hz0⟩]

/-! ## The code -/

/-- Reading `Cdr`. -/
def readCdr (heap : ν → Object (Option ν)) : Option ν → Except Fault (Option ν)
  | none => .error .undefined
  | some a =>
      match heap a with
      | .cons _ cdr => .ok cdr
      | _ => .error .undefined

/-- `eq_test` from the label `again` on; `stack` holds the objects that
`recur_push_ok` has recorded for `eq_test`.  When the object is there already,
`ans` keeps its value, which is true: the loop goes on only while it is. -/
def eqLoop [DecidableEq ν] (heap : ν → Object (Option ν)) :
    ℕ → List ν → Option ν → Bool → Option ν → Option ν → Except Fault Bool
  | 0, _, _, _, _, _ => .error .depth
  | fuel + 1, stack, pslow, toggle, p, q =>
      if p = q then
        .ok true
      else
        match p, q with
        | some a, some b =>
            match heap a, heap b with
            | .cons car cdr, .cons car' cdr' => do
                let ans ← (if a ∈ stack then .ok true
                  else eqLoop heap fuel (a :: stack) car false car car')
                if ans then
                  if cdr = pslow then
                    .ok ans
                  else
                    let pslow ← (if !toggle then readCdr heap pslow else .ok pslow)
                    eqLoop heap fuel stack pslow (!toggle) cdr cdr'
                else
                  .ok ans
            | .number x, .number y => .ok (realEq x y)
            | .string s, .string t => .ok (if a ∈ stack then true else s = t)
            | _, _ => .ok false
        | _, _ => .ok false

/-- `eq_test`.  Each cell on the stack is the start of a loop that ends after
at most twice as many rounds as there are references. -/
def eqTest [DecidableEq ν] [Fintype ν] (heap : ν → Object (Option ν)) (p q : Option ν) :
    Except Fault Bool :=
  eqLoop heap ((Fintype.card ν + 1) * (2 * Fintype.card ν + 3)) [] p false p q

/-! ## Structural equality -/

/-- Two objects are alike when their constructors are the same, and so are the
numbers or the strings; a symbol is like itself only. -/
def Object.Alike {ρ : Type} : Object ρ → Object ρ → Prop
  | .cons _ _, .cons _ _ => True
  | .number x, .number y => realEq x y = true
  | .string s, .string t => s = t
  | _, _ => False

/-- Two references show the same: they are equal, or lead to objects that are
alike. -/
def Alike (heap : ν → Object (Option ν)) (p q : Option ν) : Prop :=
  p = q ∨ ∃ a b, p = some a ∧ q = some b ∧ (heap a).Alike (heap b)

/-- Two structures agree at a path: it leaves both of them, or leads to the
same in both. -/
def AgreeAt (heap : ν → Object (Option ν)) (p q : Option ν) (path : List Field) : Prop :=
  Option.Rel (Alike heap) (follow heap p path) (follow heap q path)

/-- The structures, unfolded along all finite paths, are equal. -/
def Agree (heap : ν → Object (Option ν)) (p q : Option ν) : Prop :=
  ∀ path, AgreeAt heap p q path

section Agree

variable {heap : ν → Object (Option ν)} {p q r : Option ν}

theorem Object.Alike.symm {ρ : Type} {o o' : Object ρ} (h : o.Alike o') : o'.Alike o := by
  cases o <;> cases o' <;> simp only [Object.Alike] at h ⊢
  · rwa [realEq_comm]
  · exact h.symm

theorem Object.Alike.trans {ρ : Type} {o o' o'' : Object ρ} (h : o.Alike o') (h' : o'.Alike o'') :
    o.Alike o'' := by
  cases o <;> cases o' <;> simp only [Object.Alike] at h <;> cases o'' <;>
    simp only [Object.Alike] at h' ⊢
  · exact realEq_trans h h'
  · exact h.trans h'

theorem Alike.symm (h : Alike heap p q) : Alike heap q p := by
  rcases h with rfl | ⟨a, b, rfl, rfl, h⟩
  exacts [Or.inl rfl, Or.inr ⟨b, a, rfl, rfl, h.symm⟩]

theorem Alike.trans (h : Alike heap p q) (h' : Alike heap q r) : Alike heap p r := by
  rcases h with rfl | ⟨a, b, rfl, rfl, h⟩
  · exact h'
  · rcases h' with rfl | ⟨b', c, hb, rfl, h'⟩
    · exact Or.inr ⟨a, b, rfl, rfl, h⟩
    · cases hb
      exact Or.inr ⟨a, c, rfl, rfl, h.trans h'⟩

theorem AgreeAt.refl (path : List Field) : AgreeAt heap p p path := by
  unfold AgreeAt
  cases follow heap p path with
  | none => exact .none
  | some x => exact .some (Or.inl rfl)

theorem AgreeAt.symm {path : List Field} (h : AgreeAt heap p q path) : AgreeAt heap q p path := by
  unfold AgreeAt at h ⊢
  generalize follow heap p path = x at h ⊢
  generalize follow heap q path = y at h ⊢
  cases h with
  | none => exact .none
  | some h => exact .some h.symm

theorem AgreeAt.trans {path : List Field} (h : AgreeAt heap p q path)
    (h' : AgreeAt heap q r path) : AgreeAt heap p r path := by
  unfold AgreeAt at h h' ⊢
  generalize follow heap p path = x at h ⊢
  generalize follow heap q path = y at h h'
  generalize follow heap r path = z at h' ⊢
  cases h with
  | none => exact h'
  | some h =>
      cases h' with
      | some h' => exact .some (h.trans h')

/-- **Agreement is an equivalence.** -/
theorem agree_equivalence (heap : ν → Object (Option ν)) : Equivalence (Agree heap) where
  refl _ := AgreeAt.refl
  symm h path := (h path).symm
  trans h h' path := (h path).trans (h' path)

theorem Agree.symm (h : Agree heap p q) : Agree heap q p :=
  (agree_equivalence heap).symm h

theorem Agree.trans (h : Agree heap p q) (h' : Agree heap q r) : Agree heap p r :=
  (agree_equivalence heap).trans h h'

@[simp] theorem agreeAt_nil : AgreeAt heap p q [] ↔ Alike heap p q := by
  simp [AgreeAt]

theorem alike_some {a b : ν} (hab : a ≠ b) :
    Alike heap (some a) (some b) ↔ (heap a).Alike (heap b) := by
  simp [Alike, hab]

theorem not_alike_nil (hpq : p ≠ q) (h : p = none ∨ q = none) : ¬Alike heap p q := by
  rintro (heq | ⟨a, b, rfl, rfl, -⟩)
  · exact hpq heq
  · simp at h

/-- Below two cells that agree, the fields agree. -/
theorem agreeAt_cons {a b : ν} {car cdr car' cdr' : Option ν} (ha : heap a = .cons car cdr)
    (hb : heap b = .cons car' cdr') (path : List Field) :
    (AgreeAt heap (some a) (some b) (.car :: path) ↔ AgreeAt heap car car' path) ∧
      (AgreeAt heap (some a) (some b) (.cdr :: path) ↔ AgreeAt heap cdr cdr' path) := by
  simp only [AgreeAt, follow_some_cons, ha, hb, Object.field, Option.bind_some, and_self]

end Agree

/-! ## One round -/

section Round

variable [DecidableEq ν] {heap : ν → Object (Option ν)} {fuel : ℕ} {stack : List ν}
  {pslow p q : Option ν} {toggle : Bool} {a b : ν} {car cdr car' cdr' : Option ν}

theorem eqLoop_self : eqLoop heap (fuel + 1) stack pslow toggle p p = .ok true := by
  unfold eqLoop
  exact if_pos rfl

theorem eqLoop_cons (hab : a ≠ b) (ha : heap a = .cons car cdr) (hb : heap b = .cons car' cdr') :
    eqLoop heap (fuel + 1) stack pslow toggle (some a) (some b) = (do
      let ans ← (if a ∈ stack then .ok true
        else eqLoop heap fuel (a :: stack) car false car car')
      if ans then
        if cdr = pslow then
          .ok ans
        else
          let pslow ← (if !toggle then readCdr heap pslow else .ok pslow)
          eqLoop heap fuel stack pslow (!toggle) cdr cdr'
      else
        .ok ans) := by
  conv_lhs => unfold eqLoop
  rw [if_neg (by simpa using hab)]
  simp only [ha, hb]

/-- Two references that do not both lead to a cell are compared at once. -/
theorem eqLoop_leaf (hcells : ∀ a ∈ stack, ∃ car cdr, heap a = .cons car cdr) (hpq : p ≠ q)
    (hleaf : ∀ a b car cdr car' cdr', p = some a → q = some b → heap a = .cons car cdr →
      heap b ≠ .cons car' cdr') :
    ∃ ans, eqLoop heap (fuel + 1) stack pslow toggle p q = .ok ans ∧
      (ans = true ↔ Alike heap p q) := by
  unfold eqLoop
  rw [if_neg hpq]
  cases p with
  | none => exact ⟨false, rfl, by simp [not_alike_nil hpq (Or.inl rfl)]⟩
  | some a =>
      cases q with
      | none => exact ⟨false, rfl, by simp [not_alike_nil hpq (Or.inr rfl)]⟩
      | some b =>
          have hab : a ≠ b := fun hab => hpq (congrArg some hab)
          rw [alike_some hab]
          cases ha : heap a with
          | cons car cdr =>
              cases hb : heap b with
              | cons car' cdr' => exact absurd hb (hleaf a b car cdr car' cdr' rfl rfl ha)
              | number _ | string _ | symbol _ | zombie =>
                  exact ⟨false, by simp [ha, hb], by simp [Object.Alike]⟩
          | number x =>
              cases hb : heap b with
              | number y => exact ⟨realEq x y, by simp [ha, hb], by simp [Object.Alike]⟩
              | cons _ _ | string _ | symbol _ | zombie =>
                  exact ⟨false, by simp [ha, hb], by simp [Object.Alike]⟩
          | string s =>
              have hmem : a ∉ stack := fun hmem => by simpa [ha] using hcells a hmem
              cases hb : heap b with
              | string t =>
                  exact ⟨decide (s = t), by simp [ha, hb, hmem], by simp [Object.Alike]⟩
              | cons _ _ | number _ | symbol _ | zombie =>
                  exact ⟨false, by simp [ha, hb], by simp [Object.Alike]⟩
          | symbol name => exact ⟨false, by simp [ha], by simp [Object.Alike]⟩
          | zombie => exact ⟨false, by simp [ha], by simp [Object.Alike]⟩

end Round

/-! ## The part that is compared -/

/-- The next cell of a list; the end of a list stays where it is. -/
def cdrOf (heap : ν → Object (Option ν)) : Option ν → Option ν
  | none => none
  | some a =>
      match heap a with
      | .cons _ cdr => cdr
      | _ => none

theorem cdrOf_some {heap : ν → Object (Option ν)} {a : ν} {car cdr : Option ν}
    (ha : heap a = .cons car cdr) : cdrOf heap (some a) = cdr := by
  simp only [cdrOf, ha]

/-- The paths that are not cut off, from the cell `n` of the list that starts at
`start`: along `Cdr`, the slow pointer is not met; along `Car`, the cell is not
on the stack.  This depends on the first list only. -/
def Watched (heap : ν → Object (Option ν)) : List ν → Option ν → ℕ → List Field → Prop
  | _, _, _, [] => True
  | stack, start, n, f :: path =>
      ∃ a car cdr, (cdrOf heap)^[n] start = some a ∧ heap a = .cons car cdr ∧
        match f with
        | .car => a ∉ stack ∧ Watched heap (a :: stack) car 0 path
        | .cdr => ¬Meets (cdrOf heap) start n ∧ Watched heap stack start (n + 1) path

/-- No difference can be seen on the watched paths. -/
def Unseen (heap : ν → Object (Option ν)) (stack : List ν) (start : Option ν) (n : ℕ)
    (p q : Option ν) : Prop :=
  ∀ path, Watched heap stack start n path → AgreeAt heap p q path

section Unseen

variable {heap : ν → Object (Option ν)} {stack : List ν} {start p q : Option ν} {n : ℕ}

theorem Unseen.alike (h : Unseen heap stack start n p q) : Alike heap p q :=
  agreeAt_nil.mp (h [] trivial)

/-- Nothing is watched below what is not a cell. -/
theorem unseen_leaf (hleaf : ∀ a car cdr, (cdrOf heap)^[n] start = some a → heap a ≠ .cons car cdr) :
    Unseen heap stack start n p q ↔ Alike heap p q := by
  refine ⟨Unseen.alike, fun h path hpath => ?_⟩
  cases path with
  | nil => exact agreeAt_nil.mpr h
  | cons f path =>
      obtain ⟨a, car, cdr, hstart, ha, -⟩ := hpath
      exact absurd ha (hleaf a car cdr hstart)

/-- What is watched below two cells. -/
theorem unseen_cons {a b : ν} {car cdr car' cdr' : Option ν} (hstart : (cdrOf heap)^[n] start = some a)
    (ha : heap a = .cons car cdr) (hb : heap b = .cons car' cdr') :
    Unseen heap stack start n (some a) (some b) ↔
      (a ∉ stack → Unseen heap (a :: stack) car 0 car car') ∧
        (¬Meets (cdrOf heap) start n → Unseen heap stack start (n + 1) cdr cdr') := by
  have hcons := agreeAt_cons ha hb
  refine ⟨fun h => ⟨fun hmem path hpath => (hcons path).1.mp (h _ ?_),
    fun hmeets path hpath => (hcons path).2.mp (h _ ?_)⟩, fun ⟨hcar, hcdr⟩ path hpath => ?_⟩
  · exact ⟨a, car, cdr, hstart, ha, hmem, hpath⟩
  · exact ⟨a, car, cdr, hstart, ha, hmeets, hpath⟩
  · cases path with
    | nil => exact agreeAt_nil.mpr (Or.inr ⟨a, b, rfl, rfl, by simp [ha, hb, Object.Alike]⟩)
    | cons f path =>
        obtain ⟨a', car1, cdr1, hstart', ha', hf⟩ := hpath
        obtain rfl : a' = a := by simpa [hstart] using hstart'.symm
        obtain ⟨rfl, rfl⟩ : car1 = car ∧ cdr1 = cdr := by simpa [ha] using ha'.symm
        cases f with
        | car => exact (hcons path).1.mpr (hcar hf.1 path hf.2)
        | cdr => exact (hcons path).2.mpr (hcdr hf.1 path hf.2)

end Unseen

/-! ## The loop -/

/-- The variables of the loop at the cell `n` of a list, and the stack. -/
structure Round (heap : ν → Object (Option ν)) (stack : List ν) (start : Option ν) (n : ℕ)
    (pslow : Option ν) (toggle : Bool) (p : Option ν) : Prop where
  here : (cdrOf heap)^[n] start = p
  slow : (cdrOf heap)^[(n + 1) / 2] start = pslow
  parity : toggle = decide (n % 2 = 1)
  fresh : ∀ m < n, ¬Meets (cdrOf heap) start m
  spine : ∀ m < n, ∃ a car cdr, (cdrOf heap)^[m] start = some a ∧ heap a = .cons car cdr
  cells : ∀ a ∈ stack, ∃ car cdr, heap a = .cons car cdr
  nodup : stack.Nodup

section Round

variable {heap : ν → Object (Option ν)} {stack : List ν} {start pslow p q : Option ν} {n : ℕ}
  {toggle : Bool} {a : ν} {car cdr : Option ν}

theorem Round.first (hcells : ∀ a ∈ stack, ∃ car cdr, heap a = .cons car cdr)
    (hnodup : stack.Nodup) (p : Option ν) : Round heap stack p 0 p false p :=
  ⟨rfl, rfl, rfl, by simp, by simp, hcells, hnodup⟩

/-- The `Car` of a cell is compared with the cell on the stack. -/
theorem Round.enter (h : Round heap stack start n pslow toggle (some a))
    (ha : heap a = .cons car cdr) (hmem : a ∉ stack) :
    Round heap (a :: stack) car 0 car false car := by
  refine .first (fun b hb => ?_) (List.nodup_cons.mpr ⟨hmem, h.nodup⟩) car
  rcases List.mem_cons.mp hb with rfl | hb
  exacts [⟨car, cdr, ha⟩, h.cells b hb]

theorem Round.succ_eq (h : Round heap stack start n pslow toggle (some a))
    (ha : heap a = .cons car cdr) : (cdrOf heap)^[n + 1] start = cdr := by
  rw [Function.iterate_succ_apply', h.here, cdrOf_some ha]

theorem Round.meets_iff (h : Round heap stack start n pslow toggle (some a))
    (ha : heap a = .cons car cdr) : Meets (cdrOf heap) start n ↔ cdr = pslow := by
  rw [Meets, h.succ_eq ha, h.slow]

/-- The slow pointer goes on every second round; it is on a cell. -/
theorem Round.next (h : Round heap stack start n pslow toggle (some a))
    (ha : heap a = .cons car cdr) (hmeets : ¬Meets (cdrOf heap) start n) :
    ∃ pslow', (if (!toggle) = true then readCdr heap pslow else .ok pslow) = .ok pslow' ∧
      Round heap stack start (n + 1) pslow' (!toggle) cdr := by
  have hspine : ∀ m < n + 1, ∃ a car cdr, (cdrOf heap)^[m] start = some a ∧
      heap a = .cons car cdr := by
    intro m hm
    rcases Nat.lt_succ_iff_lt_or_eq.mp hm with hm | rfl
    exacts [h.spine m hm, ⟨a, car, cdr, h.here, ha⟩]
  have hfresh : ∀ m < n + 1, ¬Meets (cdrOf heap) start m := by
    intro m hm
    rcases Nat.lt_succ_iff_lt_or_eq.mp hm with hm | rfl
    exacts [h.fresh m hm, hmeets]
  rcases Nat.mod_two_eq_zero_or_one n with hn | hn
  · -- an even round: the slow pointer is at the cell `n / 2`
    have hhalf : (n + 1) / 2 = n / 2 := by omega
    obtain ⟨b, car1, cdr1, hb, hb'⟩ := hspine (n / 2) (by omega)
    have hslow : pslow = some b := by rw [← h.slow, hhalf, hb]
    refine ⟨cdr1, by simp [h.parity, hn, hslow, readCdr, hb'], h.succ_eq ha, ?_, ?_, hfresh,
      hspine, h.cells, h.nodup⟩
    · rw [show (n + 1 + 1) / 2 = n / 2 + 1 by omega, Function.iterate_succ_apply', hb,
        cdrOf_some hb']
    · simp [h.parity, hn, Nat.succ_mod_two_eq_one_iff.mpr hn]
  · refine ⟨pslow, by simp [h.parity, hn], h.succ_eq ha, ?_, ?_, hfresh, hspine, h.cells, h.nodup⟩
    · rw [← h.slow, show (n + 1 + 1) / 2 = (n + 1) / 2 by omega]
    · simp [h.parity, hn, Nat.succ_mod_two_eq_zero_iff.mpr hn]

variable [Fintype ν]

theorem Round.lt (h : Round heap stack start n pslow toggle p) : n < 2 * Fintype.card ν + 2 := by
  have := lt_of_not_meets h.fresh
  rw [Fintype.card_option] at this
  omega

theorem Round.length_lt (h : Round heap stack start n pslow toggle (some a)) (hmem : a ∉ stack) :
    stack.length < Fintype.card ν :=
  (List.nodup_cons.mpr ⟨hmem, h.nodup⟩).length_le_card

/-- The rounds that are left: all those of the calls below, and the rest of this
call. -/
def budget (ν : Type) [Fintype ν] (stack : List ν) (n : ℕ) : ℕ :=
  (Fintype.card ν - stack.length) * (2 * Fintype.card ν + 3) + (2 * Fintype.card ν + 2 - n)

theorem budget_enter (hlength : stack.length < Fintype.card ν) {n : ℕ}
    (hn : n < 2 * Fintype.card ν + 2) : budget ν (a :: stack) 0 < budget ν stack n := by
  obtain ⟨k, hk⟩ := Nat.exists_eq_add_of_lt hlength
  have h1 : Fintype.card ν - stack.length = k + 1 := by omega
  have h2 : Fintype.card ν - (stack.length + 1) = k := by omega
  have h3 : (k + 1) * (2 * Fintype.card ν + 3) =
      k * (2 * Fintype.card ν + 3) + (2 * Fintype.card ν + 3) := Nat.succ_mul _ _
  rw [budget, budget, List.length_cons, h1, h2, h3]
  omega

variable [DecidableEq ν]

/-- **`eq_test` returns true exactly when it sees no difference.** -/
theorem eqLoop_ok {fuel : ℕ} (h : Round heap stack start n pslow toggle p)
    (hfuel : budget ν stack n ≤ fuel) :
    ∃ ans, eqLoop heap fuel stack pslow toggle p q = .ok ans ∧
      (ans = true ↔ Unseen heap stack start n p q) := by
  induction fuel generalizing stack start n pslow toggle p q with
  | zero =>
      have := h.lt
      unfold budget at hfuel
      omega
  | succ fuel ih =>
      by_cases hpq : p = q
      · subst hpq
        exact ⟨true, eqLoop_self, by simp [Unseen, AgreeAt.refl]⟩
      by_cases hcells : ∃ a b car cdr car' cdr', p = some a ∧ q = some b ∧
          heap a = .cons car cdr ∧ heap b = .cons car' cdr'
      · obtain ⟨a, b, car, cdr, car', cdr', rfl, rfl, ha, hb⟩ := hcells
        have hab : a ≠ b := fun hab => hpq (congrArg some hab)
        rw [eqLoop_cons hab ha hb, unseen_cons h.here ha hb]
        -- the first fields
        obtain ⟨ans, hans, hcar⟩ : ∃ ans, (if a ∈ stack then .ok true
            else eqLoop heap fuel (a :: stack) car false car car') = .ok ans ∧
            (ans = true ↔ (a ∉ stack → Unseen heap (a :: stack) car 0 car car')) := by
          by_cases hmem : a ∈ stack
          · exact ⟨true, if_pos hmem, by simp [hmem]⟩
          · have hbudget := budget_enter (a := a) (h.length_lt hmem) h.lt
            obtain ⟨ans, hans, hiff⟩ := ih (q := car') (h.enter ha hmem) (by omega)
            exact ⟨ans, by rw [if_neg hmem, hans], by simp [hmem, hiff]⟩
        rw [hans]
        cases ans with
        | false => exact ⟨false, rfl, by simp [← hcar]⟩
        | true =>
            -- the rest of the lists
            rw [← hcar]
            by_cases hmeets : Meets (cdrOf heap) start n
            · have hslow := (h.meets_iff ha).mp hmeets
              exact ⟨true, by simp [hslow, Bind.bind, Except.bind], by simp [hmeets]⟩
            · have hslow := (h.meets_iff ha).not.mp hmeets
              obtain ⟨pslow', hread, hnext⟩ := h.next ha hmeets
              have hlt := h.lt
              obtain ⟨ans, hans, hiff⟩ := ih (q := cdr') hnext (by unfold budget at hfuel ⊢; omega)
              refine ⟨ans, ?_, by simp [hmeets, hiff]⟩
              simp only [Bind.bind, Except.bind, if_true, if_neg hslow, hread, hans]
      · have hleaf : ∀ a b car cdr car' cdr', p = some a → q = some b →
            heap a = .cons car cdr → heap b ≠ .cons car' cdr' :=
          fun a b car cdr car' cdr' hp hq ha hb =>
            hcells ⟨a, b, car, cdr, car', cdr', hp, hq, ha, hb⟩
        obtain ⟨ans, hans, hiff⟩ : ∃ ans, eqLoop heap (fuel + 1) stack pslow toggle p q = .ok ans ∧
            (ans = true ↔ Alike heap p q) := eqLoop_leaf h.cells hpq hleaf
        refine ⟨ans, hans, hiff.trans ⟨fun halike => (unseen_leaf ?_).mpr halike, Unseen.alike⟩⟩
        intro a car cdr ha' ha
        rw [h.here] at ha'
        rcases halike with heq | ⟨a', b, hp, hq, hab⟩
        · exact hpq heq
        · obtain rfl : a' = a := by simpa [hp] using ha'
          cases hb : heap b with
          | cons car' cdr' => exact hleaf a' b car cdr car' cdr' hp hq ha hb
          | number _ | string _ | symbol _ | zombie => simp [ha, hb, Object.Alike] at hab

end Round

/-! ## Acyclic structures -/

section Acyclic

variable {heap : ν → Object (Option ν)} {stack : List ν} {start p q : Option ν} {n : ℕ}

/-- The reference `q` is held by the target of `p`. -/
def Holds (heap : ν → Object (Option ν)) (q p : Option ν) : Prop :=
  ∃ a, p = some a ∧ q ∈ (heap a).children

/-- No path goes on forever. -/
def Acyclic (heap : ν → Object (Option ν)) (p : Option ν) : Prop :=
  Acc (Holds heap) p

theorem Acyclic.below (h : Acyclic heap p) (hq : Relation.ReflTransGen (Holds heap) q p) :
    Acyclic heap q := by
  induction hq using Relation.ReflTransGen.head_induction_on with
  | refl => exact h
  | head hstep _ ih => exact ih.inv hstep

theorem Acyclic.irrefl (h : Acyclic heap p) : ¬Relation.TransGen (Holds heap) p p := by
  have hacc := Acc.transGen h
  induction hacc with
  | intro p _ ih => exact fun hp => ih p hp (h.below hp.to_reflTransGen) hp

/-- The cells of a list are below those before them. -/
theorem holds_chain {a : ν} (h : (cdrOf heap)^[n] start = some a) {m : ℕ} (hm : m ≤ n) :
    Relation.ReflTransGen (Holds heap) (some a) ((cdrOf heap)^[m] start) := by
  induction n generalizing m a with
  | zero =>
      obtain rfl := Nat.le_zero.mp hm
      rw [h]
  | succ n ih =>
      rcases Nat.le_succ_iff.mp hm with hm | rfl
      · rw [Function.iterate_succ_apply'] at h
        cases hb : (cdrOf heap)^[n] start with
        | none => simp [hb, cdrOf] at h
        | some b =>
            cases ho : heap b with
            | cons car cdr =>
                rw [hb, cdrOf_some ho] at h
                exact .head ⟨b, rfl, by simp [ho, Object.children, h]⟩ (ih hb hm)
            | number _ | string _ | symbol _ | zombie => simp [hb, cdrOf, ho] at h
      · rw [h]

/-- **Nothing is cut off in an acyclic structure.** -/
theorem Acyclic.watched (h : Acyclic heap start)
    (hstack : ∀ b ∈ stack, Relation.TransGen (Holds heap) start (some b)) {path : List Field}
    (hpath : (follow heap ((cdrOf heap)^[n] start) path).isSome) :
    Watched heap stack start n path := by
  induction path generalizing stack start n with
  | nil => trivial
  | cons f path ih =>
      cases hstart : (cdrOf heap)^[n] start with
      | none => simp [hstart] at hpath
      | some a =>
          have hchain := holds_chain hstart (Nat.zero_le n)
          rw [hstart, follow_some_cons] at hpath
          cases ha : heap a with
          | number _ | string _ | symbol _ | zombie => cases f <;> simp [ha, Object.field] at hpath
          | cons car cdr =>
              rw [ha] at hpath
              have hcar : Holds heap car (some a) := ⟨a, rfl, by simp [ha, Object.children]⟩
              have hcdr : Holds heap cdr (some a) := ⟨a, rfl, by simp [ha, Object.children]⟩
              refine ⟨a, car, cdr, hstart, ha, ?_⟩
              cases f with
              | car =>
                  refine ⟨fun hmem => h.irrefl ((hstack a hmem).trans_left hchain), ?_⟩
                  refine ih (n := 0) (h.below (.head hcar hchain)) (fun b hb => ?_) hpath
                  rcases List.mem_cons.mp hb with rfl | hb
                  · exact .single hcar
                  · exact .trans_right (.head hcar hchain) (hstack b hb)
              | cdr =>
                  have hsucc : (cdrOf heap)^[n + 1] start = cdr := by
                    rw [Function.iterate_succ_apply', hstart, cdrOf_some ha]
                  refine ⟨fun hmeets => ?_, ih h hstack (by rw [hsucc]; exact hpath)⟩
                  have hbelow := holds_chain hstart (m := (n + 1) / 2) (by omega)
                  rw [← hmeets, hsucc] at hbelow
                  exact (h.below (.head hcdr hchain)).irrefl (.head' hcdr hbelow)

/-- Where the first structure ends, so does a second one that agrees with it. -/
theorem agree_of_isSome (h : ∀ path, (follow heap p path).isSome → AgreeAt heap p q path) :
    Agree heap p q := by
  intro path
  induction path generalizing p q with
  | nil => exact h [] (by simp)
  | cons f path ih =>
      rcases agreeAt_nil.mp (h [] (by simp)) with rfl | ⟨a, b, rfl, rfl, hab⟩
      · exact .refl _
      · cases ha : heap a with
        | cons car cdr =>
            cases hb : heap b with
            | cons car' cdr' =>
                have hcons := agreeAt_cons ha hb
                cases f with
                | car =>
                    refine (hcons path).1.mpr (ih fun path' hpath' => (hcons path').1.mp (h _ ?_))
                    simpa [follow_some_cons, ha, Object.field] using hpath'
                | cdr =>
                    refine (hcons path).2.mpr (ih fun path' hpath' => (hcons path').2.mp (h _ ?_))
                    simpa [follow_some_cons, ha, Object.field] using hpath'
            | number _ | string _ | symbol _ | zombie => simp [ha, hb, Object.Alike] at hab
        | number _ | string _ | symbol _ | zombie =>
            cases hb : heap b <;> rw [ha, hb] at hab <;>
              first
              | exact hab.elim
              | cases f <;> simp [AgreeAt, follow_some_cons, ha, hb, Object.field]

theorem Acyclic.unseen_iff (h : Acyclic heap p) : Unseen heap [] p 0 p q ↔ Agree heap p q := by
  refine ⟨fun hunseen => agree_of_isSome fun path hpath => hunseen path ?_, fun hagree path _ =>
    hagree path⟩
  exact h.watched (n := 0) (by simp) hpath

end Acyclic

/-! ## The result -/

section Result

variable [Fintype ν] [DecidableEq ν]

/-- `eq_test` ends. -/
theorem eqTest_ok (heap : ν → Object (Option ν)) (p q : Option ν) :
    ∃ ans, eqTest heap p q = .ok ans ∧ (ans = true ↔ Unseen heap [] p 0 p q) := by
  refine eqLoop_ok (.first (by simp) List.nodup_nil p) ?_
  have hsucc : (Fintype.card ν + 1) * (2 * Fintype.card ν + 3) =
      Fintype.card ν * (2 * Fintype.card ν + 3) + (2 * Fintype.card ν + 3) := Nat.succ_mul _ _
  rw [budget, List.length_nil, Nat.sub_zero, hsucc]
  omega

/-- On acyclic structures `eq_test` decides whether they are equal. -/
theorem eqTest_acyclic {heap : ν → Object (Option ν)} {p : Option ν} (h : Acyclic heap p)
    (q : Option ν) : ∃ ans, eqTest heap p q = .ok ans ∧ (ans = true ↔ Agree heap p q) := by
  obtain ⟨ans, hans, hiff⟩ := eqTest_ok heap p q
  exact ⟨ans, hans, hiff.trans h.unseen_iff⟩

/-- A difference that is not cut off in the first structure. -/
def Seen (heap : ν → Object (Option ν)) (p q : Option ν) : Prop :=
  ∃ path, Watched heap [] p 0 path ∧ ¬AgreeAt heap p q path

/-- **`eq_test` is symmetric and decides structural equality exactly when the
structures are equal, or differ in a part of each that is not cut off.** -/
theorem eqTest_correct_iff (heap : ν → Object (Option ν)) (p q : Option ν) :
    ∃ ans ans', eqTest heap p q = .ok ans ∧ eqTest heap q p = .ok ans' ∧
      (((ans = true ↔ Agree heap p q) ∧ ans = ans') ↔
        Agree heap p q ∨ (Seen heap p q ∧ Seen heap q p)) := by
  have hsymm : Agree heap p q ↔ Agree heap q p := ⟨Agree.symm, Agree.symm⟩
  have hseen : ∀ p q, Seen heap p q ↔ ¬Unseen heap [] p 0 p q := by
    intro p q
    simp [Unseen, Seen]
  obtain ⟨ans, hans, hiff⟩ := eqTest_ok heap p q
  obtain ⟨ans', hans', hiff'⟩ := eqTest_ok heap q p
  refine ⟨ans, ans', hans, hans', ?_⟩
  rw [hseen, hseen, ← hiff, ← hiff']
  by_cases hagree : Agree heap p q
  · have hall : ans = true := hiff.mpr fun path _ => hagree path
    have hall' : ans' = true := hiff'.mpr fun path _ => hsymm.mp hagree path
    simp [hagree, hall, hall']
  · cases ans <;> cases ans' <;> simp [hagree]

/-- Three objects. -/
inductive Cell
  | ring
  | single
  | one
deriving DecidableEq

instance : Fintype Cell where
  elems := {.ring, .single, .one}
  complete x := by cases x <;> decide

/-- The circular list `(1 1 1 ..)`, the list `(1)`, and the number 1. -/
def ringAndSingle : Cell → Object (Option Cell)
  | .ring => .cons (some .one) (some .ring)
  | .single => .cons (some .one) none
  | .one => .number 0x3ff0000000000000#64

theorem eqTest_ring_single :
    eqTest ringAndSingle (some .ring) (some .single) = .ok true ∧
      eqTest ringAndSingle (some .single) (some .ring) = .ok false ∧
      ¬Agree ringAndSingle (some .ring) (some .single) := by
  refine ⟨by decide, by decide, fun h => ?_⟩
  have := h [.cdr]
  simp [AgreeAt, follow_some_cons, ringAndSingle, Object.field, Alike] at this

end Result

end Lush
