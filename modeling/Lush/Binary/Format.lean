import Lush.Object

/-!
# The binary format

A binary file is a start byte, the number of relocations, and a sequence of
tokens.  The writer emits tokens; this file says what bytes they are made of
(`write_card8`, `write_card24`, `write_buffer`) and how the reader gets the
parts back (`read_card8`, `read_card24`, `read_buffer`).

A `real` is written most significant byte first on every machine: the memory
image of the number is reversed when `swapflag` says that the machine stores
the least significant byte first.
-/

namespace Lush.Binary

/-! ## Integers -/

/-- `write_card24`: the three low bytes, most significant first. -/
def card24 (x : ℕ) : List UInt8 :=
  [UInt8.ofNat (x / 65536), UInt8.ofNat (x / 256), UInt8.ofNat x]

theorem length_card24 (x : ℕ) : (card24 x).length = 3 := rfl

/-- `read_card8`. -/
def readCard8 : List UInt8 → Except Fault (ℕ × List UInt8)
  | c :: rest => .ok (c.toNat, rest)
  | [] => .error (.error "End of file during bread")

/-- `read_card24`. -/
def readCard24 : List UInt8 → Except Fault (ℕ × List UInt8)
  | c0 :: c1 :: c2 :: rest => .ok ((c0.toNat * 256 + c1.toNat) * 256 + c2.toNat, rest)
  | _ => .error (.error "End of file during bread")

/-- `read_buffer`. -/
def readBuffer (n : ℕ) (input : List UInt8) : Except Fault (List UInt8 × List UInt8) :=
  if n ≤ input.length then .ok (input.take n, input.drop n)
  else .error (.error "End of file during bread")

@[simp] theorem readCard8_cons (c : UInt8) (rest : List UInt8) :
    readCard8 (c :: rest) = .ok (c.toNat, rest) := rfl

@[simp] theorem readCard24_card24 {x : ℕ} (hx : x < 16777216) (rest : List UInt8) :
    readCard24 (card24 x ++ rest) = .ok (x, rest) := by
  have hvalue : (x / 65536 % 256 * 256 + x / 256 % 256) * 256 + x % 256 = x := by omega
  simp only [card24, List.cons_append, List.nil_append, readCard24, UInt8.toNat_ofNat']
  exact congrArg (fun n => Except.ok (n, rest)) hvalue

@[simp] theorem readBuffer_append (s rest : List UInt8) :
    readBuffer s.length (s ++ rest) = .ok (s, rest) := by
  simp [readBuffer]

/-! ## Numbers -/

/-- The memory image of a `real`; `swapflag` is set on a machine that stores
the least significant byte first. -/
def memory (swapflag : Bool) (x : BitVec 64) : List UInt8 :=
  let low := [x.toNat, x.toNat / 2 ^ 8, x.toNat / 2 ^ 16, x.toNat / 2 ^ 24, x.toNat / 2 ^ 32,
    x.toNat / 2 ^ 40, x.toNat / 2 ^ 48, x.toNat / 2 ^ 56].map UInt8.ofNat
  if swapflag then low else low.reverse

/-- The number that starts with the least significant byte. -/
def ofLow (bytes : List UInt8) : BitVec 64 :=
  BitVec.ofNat 64 (bytes.foldr (fun b n => b.toNat + 256 * n) 0)

/-- The `real` with a given memory image. -/
def ofMemory (swapflag : Bool) (bytes : List UInt8) : BitVec 64 :=
  ofLow (if swapflag then bytes else bytes.reverse)

/-- `swap_buffer` on one item. -/
def swapBuffer (swapflag : Bool) (bytes : List UInt8) : List UInt8 :=
  if swapflag then bytes.reverse else bytes

@[simp] theorem length_memory (swapflag : Bool) (x : BitVec 64) :
    (memory swapflag x).length = 8 := by
  cases swapflag <;> rfl

@[simp] theorem length_swapBuffer (swapflag : Bool) (bytes : List UInt8) :
    (swapBuffer swapflag bytes).length = bytes.length := by
  cases swapflag <;> simp [swapBuffer]

@[simp] theorem swapBuffer_swapBuffer (swapflag : Bool) (bytes : List UInt8) :
    swapBuffer swapflag (swapBuffer swapflag bytes) = bytes := by
  cases swapflag <;> simp [swapBuffer]

@[simp] theorem ofMemory_memory (swapflag : Bool) (x : BitVec 64) :
    ofMemory swapflag (memory swapflag x) = x := by
  have hlow : ofMemory swapflag (memory swapflag x) = ofLow (memory true x) := by
    cases swapflag <;> simp [ofMemory, memory]
  have hx := x.isLt
  rw [hlow]
  apply BitVec.eq_of_toNat_eq
  simp only [memory, ofLow, List.map, List.foldr, if_true, BitVec.toNat_ofNat,
    UInt8.toNat_ofNat', Nat.reducePow]
  omega

/-! ## Tokens -/

/-- The tokens of the object graphs under study, each with what follows its
first byte. -/
inductive Token
  | ref (k : ℕ)
  | defn (k : ℕ)
  | nil
  | cons
  | number (x : BitVec 64)
  | string (s : List UInt8)
  | symbol (name : List UInt8)
deriving DecidableEq

/-- What `local_write` puts on the file for one token; the first byte is the
rank of the token in `enum binarytokens`, from `TOK_REF` to `TOK_SYMBOL`. -/
def Token.bytes (swapflag : Bool) : Token → List UInt8
  | .ref k => 1 :: card24 k
  | .defn k => 2 :: card24 k
  | .nil => [3]
  | .cons => [4]
  | .number x => 5 :: swapBuffer swapflag (memory swapflag x)
  | .string s => 6 :: (card24 s.length ++ s)
  | .symbol name => 7 :: (card24 name.length ++ name)

/-- The bytes of a token sequence. -/
def bytesOf (swapflag : Bool) (tokens : List Token) : List UInt8 :=
  tokens.flatMap (Token.bytes swapflag)

@[simp] theorem bytesOf_nil (swapflag : Bool) : bytesOf swapflag [] = [] := rfl

@[simp] theorem bytesOf_cons (swapflag : Bool) (t : Token) (ts : List Token) :
    bytesOf swapflag (t :: ts) = t.bytes swapflag ++ bytesOf swapflag ts := rfl

@[simp] theorem bytesOf_append (swapflag : Bool) (ts us : List Token) :
    bytesOf swapflag (ts ++ us) = bytesOf swapflag ts ++ bytesOf swapflag us := by
  simp [bytesOf]

theorem length_le_bytesOf (swapflag : Bool) (ts : List Token) :
    ts.length ≤ (bytesOf swapflag ts).length := by
  induction ts with
  | nil => simp
  | cons t ts ih =>
      have : 1 ≤ (t.bytes swapflag).length := by cases t <;> simp [Token.bytes]
      simp only [bytesOf_cons, List.length_append, List.length_cons]
      omega

/-- `BINARYSTART`. -/
def binaryStart : UInt8 := 0x9f

end Lush.Binary
