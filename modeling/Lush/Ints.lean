import Lush.Basic

/-!
# The arithmetic of `int`

An `int` has 32 bits.  An operation whose result is not an `int` is undefined, and a
size that is converted to an `int` loses its upper bits.
-/

namespace Lush

/-- The values of an `int`. -/
def InInt (x : ℤ) : Prop := -2147483648 ≤ x ∧ x < 2147483648

instance (x : ℤ) : Decidable (InInt x) := inferInstanceAs (Decidable (_ ∧ _))

/-- The result of an operation on `int`s. -/
def intResult (x : ℤ) : Except Fault ℤ := if InInt x then .ok x else .error .undefined

/-- `(int)x`. -/
@[irreducible] def intCast (x : ℤ) : ℤ := Int.bmod x 4294967296

theorem ok_bind {α β : Type} (a : α) (f : α → Except Fault β) : (.ok a >>= f) = f a := rfl

theorem error_bind {α β : Type} (fault : Fault) (f : α → Except Fault β) :
    (.error fault >>= f) = .error fault := rfl

theorem intResult_ok {x : ℤ} (h : InInt x) : intResult x = .ok x := if_pos h

theorem intResult_error {x : ℤ} (h : ¬ InInt x) : intResult x = .error .undefined := if_neg h

theorem inInt_toInt (x : BitVec 32) : InInt x.toInt := ⟨x.le_toInt, x.toInt_lt⟩

theorem inInt_intCast (x : ℤ) : InInt (intCast x) := by
  unfold InInt intCast
  rw [Int.bmod_def]
  omega

theorem intCast_of_inInt {x : ℤ} (h : InInt x) : intCast x = x := by
  unfold InInt at h
  unfold intCast
  rw [Int.bmod_def]
  omega

/-! ## `long long` -/

/-- The values of a `long long`. -/
def InLong (x : ℤ) : Prop := -9223372036854775808 ≤ x ∧ x < 9223372036854775808

instance (x : ℤ) : Decidable (InLong x) := inferInstanceAs (Decidable (_ ∧ _))

/-- The result of an operation on `long long`s. -/
def longResult (x : ℤ) : Except Fault ℤ := if InLong x then .ok x else .error .undefined

theorem longResult_ok {x : ℤ} (h : InLong x) : longResult x = .ok x := if_pos h

theorem inLong_toInt (x : BitVec 64) : InLong x.toInt := ⟨x.le_toInt, x.toInt_lt⟩

/-! ## Quotients -/

/-- The remainder of a negative number is negative, unless it is zero. -/
theorem floor_of_tmod_neg {x d : ℤ} (hd : 0 < d) (h : x.tmod d < 0) :
    x.tdiv d - 1 = x / d ∧ x.tmod d + d = x % d := by
  have hmod := Int.emod_nonneg x hd.ne'
  have habs : (d.natAbs : ℤ) = d := Int.natAbs_of_nonneg hd.le
  rw [Int.tmod_eq_emod] at h ⊢
  rw [Int.tdiv_eq_ediv]
  split_ifs at h ⊢ with hx
  · omega
  · rw [Int.sign_eq_one_of_pos hd]
    omega

theorem floor_of_tmod_nonneg {x d : ℤ} (hd : 0 < d) (h : ¬ x.tmod d < 0) :
    x.tdiv d = x / d ∧ x.tmod d = x % d := by
  have hmod := Int.emod_lt_of_pos x hd
  have habs : (d.natAbs : ℤ) = d := Int.natAbs_of_nonneg hd.le
  rw [Int.tmod_eq_emod] at h ⊢
  rw [Int.tdiv_eq_ediv]
  split_ifs at h ⊢ with hx
  · omega
  · omega

/-! ## Conversions -/

/-- What is lost in the conversion. -/
theorem exists_intCast (x : ℤ) : ∃ k, x = intCast x + 4294967296 * k := by
  refine ⟨(x - intCast x) / 4294967296, ?_⟩
  unfold intCast
  rw [Int.bmod_def]
  omega

end Lush
