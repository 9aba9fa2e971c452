import Lush.Httpd.Server
import Lush.Json.Documents

/-!
# Form decoding

`httpd-url-decode` reads escapes with the number reader, `httpd-parse-form` cuts a text at `&` and
each part at its first `=`, and `httpd-query-param` looks for a name with `=` anywhere in the text.
Strings are lists of bytes.
-/

namespace Lush.Httpd

open Text (ascii strVal)
open Binary64

/-! ## String functions -/

/-- `(index s1 s2)`: the position of the first occurrence, counted from 1. -/
def strIndex (s1 : List UInt8) : List UInt8 → Option ℕ
  | [] => none
  | c :: s2 => if s1 <+: c :: s2 then some 1 else (strIndex s1 s2).map (· + 1)

/-- `(chr (val s))`, where `val` may have returned `()`. -/
def chrVal (s : List UInt8) : Except Fault (List UInt8) :=
  match strVal s with
  | none => .error (.error "not a real number")
  | some x =>
      match magnitude x with
      | none => .error .undefined
      | some q =>
          let i : ℤ := if negative x then -⌊q⌋₊ else ⌊q⌋₊
          if i < 0 ∨ 255 < i then .error (.error "Out of range")
          else
            -- a zero is the end of the string
            .ok (if i = 0 then [] else [UInt8.ofNat i.toNat])

/-! ## The source -/

/-- `httpd-url-decode`, from a position on. -/
def httpdUrlDecode : List UInt8 → Except Fault (List UInt8)
  | [] => .ok []
  | ch :: s =>
      if ch = ascii '%' then
        match s with
        | a :: b :: t => do
            let c ← chrVal [ascii '0', ascii 'x', a, b]
            let out ← httpdUrlDecode t
            .ok (c ++ out)
        | [a] => do
            let out ← httpdUrlDecode [a]
            .ok (ascii '%' :: out)
        | [] => .ok [ascii '%']
      else if ch = ascii '+' then do
        let out ← httpdUrlDecode s
        .ok (ascii ' ' :: out)
      else do
        let out ← httpdUrlDecode s
        .ok (ch :: out)

/-- A list of keys with values. -/
abbrev Alist := List (List UInt8 × List UInt8)

/-- What a round of `httpd-parse-form` adds to the result. -/
def parsePair (pair : List UInt8) (result : Alist) : Except Fault Alist :=
  match index (ascii '=') pair with
  | none => .ok result
  | some eq => do
      let key ← httpdUrlDecode (left pair (eq - 1))
      let val ← httpdUrlDecode (mid pair (eq + 1))
      .ok (result ++ [(key, val)])

theorem index_bounds {c : UInt8} {s : List UInt8} {i : ℕ} (h : index c s = some i) :
    1 ≤ i ∧ i ≤ s.length := by
  obtain ⟨j, hj, rfl⟩ := Option.map_eq_some_iff.mp h
  have hlt := (List.findIdx?_eq_some_iff_findIdx_eq.mp hj).1
  omega

/-- The loop of `httpd-parse-form`. -/
def parseLoop (s : List UInt8) (result : Alist) : Except Fault Alist :=
  match h : index (ascii '&') s with
  | none => parsePair s result
  | some amp => do
      let result ← parsePair (left s (amp - 1)) result
      parseLoop (mid s (amp + 1)) result
termination_by s.length
decreasing_by
  have hbounds := index_bounds h
  rw [mid, List.length_drop]
  omega

/-- `httpd-parse-form`. -/
def httpdParseForm (body : List UInt8) : Except Fault Alist := parseLoop body []

/-- `httpd-query-param`, for a string. -/
def httpdQueryParam (query name : List UInt8) : Except Fault (Option (List UInt8)) :=
  if query.length = 0 then .ok none
  else
    let search := name ++ [ascii '=']
    match strIndex search query with
    | none => .ok none
    | some pos =>
        let rest := mid query (pos + search.length)
        let value := match index (ascii '&') rest with
          | none => rest
          | some amp => left rest (amp - 1)
        (httpdUrlDecode value).map some

/-! ## Escapes -/

/-- A text with escapes, and the bytes it stands for.  A `%` before fewer than two bytes stands for
itself, and the escape of zero for nothing. -/
inductive Spells : List UInt8 → List UInt8 → Prop
  | nil : Spells [] []
  | escape {a b : UInt8} {i j : ℕ} {s u : List UInt8} : Json.hexDigit a = some i →
      Json.hexDigit b = some j → Spells s u →
      Spells (ascii '%' :: a :: b :: s)
        ((if 16 * i + j = 0 then [] else [UInt8.ofNat (16 * i + j)]) ++ u)
  | percent {s u : List UInt8} : s.length < 2 → Spells s u → Spells (ascii '%' :: s) (ascii '%' :: u)
  | plus {s u : List UInt8} : Spells s u → Spells (ascii '+' :: s) (ascii ' ' :: u)
  | plain {c : UInt8} {s u : List UInt8} : c ≠ ascii '%' → c ≠ ascii '+' → Spells s u →
      Spells (c :: s) (c :: u)

/-- Two hexadecimal digits follow each `%` with two bytes behind it. -/
def Escaped (s : List UInt8) : Prop :=
  ∀ pre a b t, s = pre ++ ascii '%' :: a :: b :: t →
    (Json.hexDigit a).isSome ∧ (Json.hexDigit b).isSome

end Lush.Httpd
