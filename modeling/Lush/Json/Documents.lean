import Lush.Json.Stream
import Lush.Text.Numbers

/-!
# Documents

`Spells` is the grammar of documents, with the values that they stand for: literals, integers,
strings with their escapes, arrays and objects, and white space around them.  A document has at
least as many characters as its tag stream has entries (`Spells.size_le`), and as its keys and
strings have bytes with the zeros after them (`Spells.bytes_le`).

`lispValue` is the mapping that the documentation of `json-parse` gives.
-/

namespace Lush.Json

open Text (ascii digitsValue)

/-! ## Strings -/

/-- A hexadecimal digit. -/
def hexDigit (b : UInt8) : Option ℕ :=
  if 0x30 ≤ b ∧ b ≤ 0x39 then some (b.toNat - 0x30)
  else if 0x41 ≤ b ∧ b ≤ 0x46 then some (b.toNat - 0x41 + 10)
  else if 0x61 ≤ b ∧ b ≤ 0x66 then some (b.toNat - 0x61 + 10)
  else none

/-- The four digits after `\u`. -/
def hex4 : List UInt8 → Option ℕ
  | [a, b, c, d] => do
      let a ← hexDigit a
      let b ← hexDigit b
      let c ← hexDigit c
      let d ← hexDigit d
      some (((a * 16 + b) * 16 + c) * 16 + d)
  | _ => none

/-- The bytes of a character. -/
def utf8 (c : ℕ) : List UInt8 :=
  if c < 0x80 then [UInt8.ofNat c]
  else if c < 0x800 then [UInt8.ofNat (0xc0 + c / 64), UInt8.ofNat (0x80 + c % 64)]
  else if c < 0x10000 then
    [UInt8.ofNat (0xe0 + c / 4096), UInt8.ofNat (0x80 + c / 64 % 64), UInt8.ofNat (0x80 + c % 64)]
  else
    [UInt8.ofNat (0xf0 + c / 262144), UInt8.ofNat (0x80 + c / 4096 % 64),
      UInt8.ofNat (0x80 + c / 64 % 64), UInt8.ofNat (0x80 + c % 64)]

/-- The characters after a backslash, with what they stand for. -/
def escapes : List (UInt8 × UInt8) :=
  [(0x22, 0x22), (0x5c, 0x5c), (0x2f, 0x2f), (0x62, 8), (0x66, 12), (0x6e, 10), (0x72, 13),
    (0x74, 9)]

/-- What stands between quotes, and the bytes of the string. -/
inductive Chars : List UInt8 → List UInt8 → Prop
  | nil : Chars [] []
  | plain {b : UInt8} {s t : List UInt8} : 0x20 ≤ b → b ≠ 0x22 → b ≠ 0x5c → Chars s t →
      Chars (b :: s) (b :: t)
  | escape {b c : UInt8} {s t : List UInt8} : (b, c) ∈ escapes → Chars s t →
      Chars (0x5c :: b :: s) (c :: t)
  | unicode {digits s t : List UInt8} {c : ℕ} : hex4 digits = some c →
      ¬(0xd800 ≤ c ∧ c < 0xe000) → Chars s t → Chars (0x5c :: 0x75 :: digits ++ s) (utf8 c ++ t)
  | pair {high low s t : List UInt8} {c d : ℕ} : hex4 high = some c → 0xd800 ≤ c → c < 0xdc00 →
      hex4 low = some d → 0xdc00 ≤ d → d < 0xe000 → Chars s t →
      Chars (0x5c :: 0x75 :: high ++ 0x5c :: 0x75 :: low ++ s)
        (utf8 (0x10000 + (c - 0xd800) * 0x400 + (d - 0xdc00)) ++ t)

/-! ## Integers -/

/-- Digits, without a zero before others. -/
structure Digits (ds : List UInt8) : Prop where
  ne_nil : ds ≠ []
  digit : ∀ b ∈ ds, 0x30 ≤ b ∧ b ≤ 0x39
  zero : ds.head? = some 0x30 → ds = [0x30]

/-! ## Documents -/

/-- White space. -/
def Space (w : List UInt8) : Prop := ∀ b ∈ w, b = 0x20 ∨ b = 0x09 ∨ b = 0x0a ∨ b = 0x0d

/-- What a text can stand for. -/
inductive Item
  | value (v : Val)
  | elements (vs : List Val)
  | members (ms : List (List UInt8 × Val))

/-- The texts of values, and of what stands between brackets. -/
inductive Spells : List UInt8 → Item → Prop
  | null : Spells ("null".toList.map ascii) (.value .null)
  | true : Spells ("true".toList.map ascii) (.value (.bool true))
  | false : Spells ("false".toList.map ascii) (.value (.bool false))
  | int {ds : List UInt8} : Digits ds → Spells ds (.value (.int (digitsValue ds)))
  | neg {ds : List UInt8} : Digits ds → Spells (0x2d :: ds) (.value (.int (-digitsValue ds)))
  | str {s t : List UInt8} : Chars s t → Spells (0x22 :: s ++ [0x22]) (.value (.str t))
  | noElements {w : List UInt8} : Space w → Spells (0x5b :: w ++ [0x5d]) (.value (.arr []))
  | arr {s : List UInt8} {vs : List Val} : Spells s (.elements vs) →
      Spells (0x5b :: s ++ [0x5d]) (.value (.arr vs))
  | noMembers {w : List UInt8} : Space w → Spells (0x7b :: w ++ [0x7d]) (.value (.obj []))
  | obj {s : List UInt8} {ms : List (List UInt8 × Val)} : Spells s (.members ms) →
      Spells (0x7b :: s ++ [0x7d]) (.value (.obj ms))
  | lastElement {w s w' : List UInt8} {v : Val} : Space w → Spells s (.value v) → Space w' →
      Spells (w ++ s ++ w') (.elements [v])
  | element {w s w' rest : List UInt8} {v : Val} {vs : List Val} : Space w → Spells s (.value v) →
      Space w' → Spells rest (.elements vs) →
      Spells (w ++ s ++ w' ++ 0x2c :: rest) (.elements (v :: vs))
  | lastMember {w k w' w'' s w''' key : List UInt8} {v : Val} : Space w → Chars k key → Space w' →
      Space w'' → Spells s (.value v) → Space w''' →
      Spells (w ++ 0x22 :: k ++ 0x22 :: w' ++ 0x3a :: w'' ++ s ++ w''') (.members [(key, v)])
  | member {w k w' w'' s w''' rest key : List UInt8} {v : Val} {ms : List (List UInt8 × Val)} :
      Space w → Chars k key → Space w' → Space w'' → Spells s (.value v) → Space w''' →
      Spells rest (.members ms) →
      Spells (w ++ 0x22 :: k ++ 0x22 :: w' ++ 0x3a :: w'' ++ s ++ w''' ++ 0x2c :: rest)
        (.members ((key, v) :: ms))

/-- A document and its value. -/
def Document (text : List UInt8) (v : Val) : Prop :=
  ∃ w s w', Space w ∧ Spells s (.value v) ∧ Space w' ∧ text = w ++ s ++ w'

/-! ## Sizes -/

mutual

/-- The number of entries for a value. -/
def Val.size : Val → ℕ
  | .arr vs => sizeElements vs + 2
  | .obj ms => sizeMembers ms + 2
  | _ => 1

def sizeElements : List Val → ℕ
  | [] => 0
  | v :: vs => v.size + sizeElements vs

def sizeMembers : List (List UInt8 × Val) → ℕ
  | [] => 0
  | (_, v) :: ms => 1 + v.size + sizeMembers ms

end

mutual

/-- The keys and strings of a value, with a zero after each. -/
def Val.bytes : Val → List UInt8
  | .str s => s ++ [0]
  | .arr vs => bytesElements vs
  | .obj ms => bytesMembers ms
  | _ => []

def bytesElements : List Val → List UInt8
  | [] => []
  | v :: vs => v.bytes ++ bytesElements vs

def bytesMembers : List (List UInt8 × Val) → List UInt8
  | [] => []
  | (key, v) :: ms => key ++ 0 :: v.bytes ++ bytesMembers ms

end

namespace Item

def size : Item → ℕ
  | value v => v.size
  | elements vs => sizeElements vs
  | members ms => sizeMembers ms

def bytes : Item → List UInt8
  | value v => v.bytes
  | elements vs => bytesElements vs
  | members ms => bytesMembers ms

end Item

theorem length_hex4 {digits : List UInt8} {c : ℕ} (h : hex4 digits = some c) :
    digits.length = 4 := by
  match digits with
  | [_, _, _, _] => rfl
  | [] | [_] | [_, _] | [_, _, _] | _ :: _ :: _ :: _ :: _ :: _ => simp [hex4] at h

theorem length_utf8_le (c : ℕ) : (utf8 c).length ≤ 4 := by
  unfold utf8
  split_ifs <;> simp

/-- An escape is at least as long as the character that it stands for. -/
theorem Chars.length_le {s t : List UInt8} (h : Chars s t) : t.length ≤ s.length := by
  induction h with
  | nil => exact le_rfl
  | plain _ _ _ _ ih => simpa using ih
  | escape _ _ ih =>
      simp only [List.length_cons]
      omega
  | @unicode digits s t c hdigits _ _ ih =>
      have hlen := length_hex4 hdigits
      have hutf8 := length_utf8_le c
      simp only [List.length_append, List.length_cons]
      omega
  | @pair high low s t c d hhigh _ _ hlow _ _ _ ih =>
      have hlen := length_hex4 hhigh
      have hutf8 := length_utf8_le (0x10000 + (c - 0xd800) * 0x400 + (d - 0xdc00))
      simp only [List.length_append, List.length_cons]
      omega

/-- **There are as many characters as entries.** -/
theorem Spells.size_le {s : List UInt8} {item : Item} (h : Spells s item) :
    item.size ≤ s.length := by
  induction h with
  | null | true | false => decide
  | int hds => exact List.length_pos_iff.mpr hds.ne_nil
  | neg _ => simp [Item.size, Val.size]
  | str _ => simp [Item.size, Val.size]
  | noElements _ | noMembers _ => simp [Item.size, Val.size, sizeElements, sizeMembers]
  | arr _ ih | obj _ ih =>
      simp only [Item.size, Val.size, List.length_append, List.length_cons, List.length_nil] at ih ⊢
      omega
  | lastElement _ _ _ ih =>
      simp only [Item.size, sizeElements, List.length_append] at ih ⊢
      omega
  | element _ _ _ _ ih ih' =>
      simp only [Item.size, sizeElements, List.length_append, List.length_cons] at ih ih' ⊢
      omega
  | lastMember _ _ _ _ _ _ ih =>
      simp only [Item.size, sizeMembers, List.length_append, List.length_cons] at ih ⊢
      omega
  | member _ _ _ _ _ _ _ ih ih' =>
      simp only [Item.size, sizeMembers, List.length_append, List.length_cons] at ih ih' ⊢
      omega

/-- **There are as many characters as bytes of keys and strings.** -/
theorem Spells.bytes_le {s : List UInt8} {item : Item} (h : Spells s item) :
    item.bytes.length ≤ s.length := by
  induction h with
  | null | true | false => decide
  | int _ | neg _ => exact Nat.zero_le _
  | str hchars =>
      have hle := hchars.length_le
      simp only [Item.bytes, Val.bytes, List.length_append, List.length_cons, List.length_nil]
      omega
  | noElements _ | noMembers _ => simp [Item.bytes, Val.bytes, bytesElements, bytesMembers]
  | arr _ ih | obj _ ih =>
      simp only [Item.bytes, Val.bytes, List.length_append, List.length_cons] at ih ⊢
      omega
  | lastElement _ _ _ ih =>
      simp only [Item.bytes, bytesElements, List.length_append, List.length_nil] at ih ⊢
      omega
  | element _ _ _ _ ih ih' =>
      simp only [Item.bytes, bytesElements, List.length_append, List.length_cons] at ih ih' ⊢
      omega
  | lastMember _ hkey _ _ _ _ ih =>
      have hle := hkey.length_le
      simp only [Item.bytes, bytesMembers, List.length_append, List.length_cons,
        List.length_nil] at ih ⊢
      omega
  | member _ hkey _ _ _ _ _ ih ih' =>
      have hle := hkey.length_le
      simp only [Item.bytes, bytesMembers, List.length_append, List.length_cons] at ih ih' ⊢
      omega

/-! ## The mapping -/

mutual

/-- The Lisp value that a value of a document is mapped to. -/
def lispValue : Val → Value
  | .null => .nil
  | .bool b => if b then .t else .nil
  | .int i => .number i
  | .real x => .number x
  | .str s => .string (cstring s)
  | .arr vs => list (lispElements vs)
  | .obj ms => list (lispMembers ms)

def lispElements : List Val → List Value
  | [] => []
  | v :: vs => lispValue v :: lispElements vs

def lispMembers : List (List UInt8 × Val) → List Value
  | [] => []
  | (key, v) :: ms => .cons (.string (cstring key)) (lispValue v) :: lispMembers ms

end

mutual

/-- Keys and strings have no zero, and integers have at most 53 bits. -/
def Val.Plain : Val → Prop
  | .int i => i.natAbs ≤ 2 ^ 53
  | .str s => 0 ∉ s
  | .arr vs => PlainElements vs
  | .obj ms => PlainMembers ms
  | _ => True

def PlainElements : List Val → Prop
  | [] => True
  | v :: vs => v.Plain ∧ PlainElements vs

def PlainMembers : List (List UInt8 × Val) → Prop
  | [] => True
  | (key, v) :: ms => 0 ∉ key ∧ v.Plain ∧ PlainMembers ms

end

end Lush.Json
