import Mathlib

/-!
# Words of bytes

A word of `k` bytes is a bit vector of `8 * k` bits; a file holds the bytes of its
words one after the other, the lowest byte of a word first.  `read` takes words from
the front of a file, as many as there are; what `write` has put there it gives back
(`read_write_append`), whatever follows.
-/

namespace Lush.Words

variable {k : ℕ}

/-- The number that a list of bytes stands for, the lowest byte first. -/
def value (bs : List UInt8) : ℕ :=
  bs.foldr (fun b n => b.toNat + 256 * n) 0

/-- The `k` lowest bytes of a number, the lowest one first. -/
def digits (k n : ℕ) : List UInt8 :=
  (List.range k).map fun i => UInt8.ofNat (n / 256 ^ i)

@[simp] theorem value_nil : value [] = 0 := rfl

@[simp] theorem value_cons (b : UInt8) (bs : List UInt8) :
    value (b :: bs) = b.toNat + 256 * value bs := rfl

@[simp] theorem length_digits (n : ℕ) : (digits k n).length = k := by
  simp [digits]

theorem digits_succ (k n : ℕ) : digits (k + 1) n = UInt8.ofNat n :: digits k (n / 256) := by
  simp [digits, List.range_succ_eq_map, Nat.div_div_eq_div_mul, pow_succ']

theorem value_lt (bs : List UInt8) : value bs < 256 ^ bs.length := by
  induction bs with
  | nil => simp
  | cons b bs ih =>
      have hb : b.toNat < 256 := b.toNat_lt
      rw [value_cons, List.length_cons, pow_succ']
      omega

theorem value_digits (k n : ℕ) : value (digits k n) = n % 256 ^ k := by
  induction k generalizing n with
  | zero => simp [digits, Nat.mod_one]
  | succ k ih =>
      rw [digits_succ, value_cons, ih, pow_succ', Nat.mod_mul, UInt8.toNat_ofNat']

theorem digits_value (bs : List UInt8) : digits bs.length (value bs) = bs := by
  induction bs with
  | nil => rfl
  | cons b bs ih =>
      have hb : b.toNat < 256 := b.toNat_lt
      have hdiv : value (b :: bs) / 256 = value bs := by
        rw [value_cons]
        omega
      have hmod : UInt8.ofNat (value (b :: bs)) = b := by
        apply UInt8.toNat_inj.mp
        rw [UInt8.toNat_ofNat', value_cons]
        omega
      rw [List.length_cons, digits_succ, hdiv, hmod, ih]

/-! ## Words -/

/-- The bytes of a word. -/
def encode (w : BitVec (8 * k)) : List UInt8 := digits k w.toNat

/-- The word of some bytes. -/
def decode (k : ℕ) (bs : List UInt8) : BitVec (8 * k) := BitVec.ofNat _ (value bs)

theorem pow_bits (k : ℕ) : 2 ^ (8 * k) = 256 ^ k := by
  rw [pow_mul]
  norm_num

@[simp] theorem length_encode (w : BitVec (8 * k)) : (encode w).length = k :=
  length_digits _

@[simp] theorem decode_encode (w : BitVec (8 * k)) : decode k (encode w) = w := by
  apply BitVec.eq_of_toNat_eq
  have hlt : w.toNat < 256 ^ k := pow_bits k ▸ w.isLt
  rw [decode, encode, BitVec.toNat_ofNat, value_digits, pow_bits, Nat.mod_mod,
    Nat.mod_eq_of_lt hlt]

theorem encode_decode {bs : List UInt8} (h : bs.length = k) : encode (decode k bs) = bs := by
  subst h
  have hlt : value bs < 2 ^ (8 * bs.length) := pow_bits bs.length ▸ value_lt bs
  rw [encode, decode, BitVec.toNat_ofNat, Nat.mod_eq_of_lt hlt, digits_value]

theorem getElem_encode (w : BitVec (8 * k)) {i : ℕ} (hi : i < (encode w).length) :
    (encode w)[i] = UInt8.ofBitVec (w.extractLsb' (8 * i) 8) := by
  apply UInt8.toBitVec_inj.mp
  apply BitVec.eq_of_toNat_eq
  simp [encode, digits, Nat.shiftRight_eq_div_pow, pow_mul]

/-! ## Files of words -/

/-- The bytes of some words. -/
def write (ws : List (BitVec (8 * k))) : List UInt8 := ws.flatMap encode

/-- The first `n` words of a file, or all of them when there are fewer. -/
def read (k : ℕ) : ℕ → List UInt8 → List (BitVec (8 * k))
  | 0, _ => []
  | n + 1, bs => if k ≤ bs.length then decode k (bs.take k) :: read k n (bs.drop k) else []

@[simp] theorem write_nil : write ([] : List (BitVec (8 * k))) = [] := rfl

@[simp] theorem write_cons (w : BitVec (8 * k)) (ws : List (BitVec (8 * k))) :
    write (w :: ws) = encode w ++ write ws := rfl

@[simp] theorem write_append (ws vs : List (BitVec (8 * k))) :
    write (ws ++ vs) = write ws ++ write vs :=
  List.flatMap_append

@[simp] theorem length_write (ws : List (BitVec (8 * k))) :
    (write ws).length = k * ws.length := by
  induction ws with
  | nil => simp
  | cons w ws ih => rw [write_cons, List.length_append, length_encode, ih, List.length_cons,
      Nat.mul_succ, Nat.add_comm]

@[simp] theorem read_zero (bs : List UInt8) : read k 0 bs = [] := rfl

theorem read_succ_encode (w : BitVec (8 * k)) (n : ℕ) (bs : List UInt8) :
    read k (n + 1) (encode w ++ bs) = w :: read k n bs := by
  have hle : k ≤ (encode w ++ bs).length := by simp
  rw [read, if_pos hle, List.take_left' (length_encode w), List.drop_left' (length_encode w),
    decode_encode]

theorem length_read_le (n : ℕ) (bs : List UInt8) : (read k n bs).length ≤ n := by
  induction n generalizing bs with
  | zero => simp
  | succ n ih =>
      unfold read
      split_ifs
      · exact Nat.succ_le_succ (ih _)
      · exact Nat.zero_le _

/-- **What has been written is read back, whatever follows it.** -/
theorem read_write_append (ws : List (BitVec (8 * k))) (n : ℕ) (bs : List UInt8) :
    read k (ws.length + n) (write ws ++ bs) = ws ++ read k n bs := by
  induction ws with
  | nil => simp
  | cons w ws ih =>
      rw [List.length_cons, Nat.add_right_comm, write_cons, List.append_assoc, read_succ_encode,
        ih, List.cons_append]

@[simp] theorem read_write (ws : List (BitVec (8 * k))) : read k ws.length (write ws) = ws := by
  simpa using read_write_append ws 0 []

end Lush.Words
