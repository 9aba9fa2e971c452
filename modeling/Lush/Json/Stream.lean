import Lush.Arrays.MatrixFile
import Lush.Datatable.Persisted

/-!
# The tag stream of a document

`lush_json_parse` walks through the values that `yyjson` finds and writes an entry for each of
them, and for the ends of arrays and objects; keys and strings go to a buffer.  It stops where
its arrays are full.  `_json-reconstruct` reads the entries from a position on and returns the
value with the next position.

The arrays are as long as `json-parse` makes them for the text.  Their lengths are passed to the C
code as `int`.
-/

namespace Lush.Json

open Arrays (asInt)
open Datatable (numberOf)

/-! ## Values -/

/-- A `yyjson_val`. -/
inductive Val
  | null
  | bool (b : Bool)
  | int (i : ℤ)
  | real (x : ℚ)
  | str (s : List UInt8)
  | arr (elements : List Val)
  | obj (members : List (List UInt8 × Val))

/-- A Lisp value. -/
inductive Value
  | nil
  | t
  | number (x : ℚ)
  | string (s : CString)
  | cons (car cdr : Value)
deriving DecidableEq

/-- `(list ..)`. -/
def list (vs : List Value) : Value := vs.foldr .cons .nil

/-! ## Writing -/

/-- `LUSH_JSON_TAG_*`. -/
inductive Tag
  | null
  | bool
  | int
  | real
  | string
  | arrayStart
  | arrayEnd
  | objStart
  | objEnd
  | key
deriving DecidableEq

/-- The elements at one position of `type_tags`, `num_vals` and `str_offsets`. -/
structure Entry where
  tag : Tag
  num : ℚ
  offset : ℤ
deriving DecidableEq

/-- `_parse_ctx`, with what has been written to the arrays. -/
structure Ctx where
  entries : List Entry
  strBuf : List UInt8
  maxEntries : ℤ
  strBufSize : ℤ
  error : Bool

namespace Ctx

variable (ctx : Ctx)

/-- `_emit_string`. -/
def emitString (tag : Tag) (s : List UInt8) : Ctx :=
  if ctx.maxEntries ≤ ctx.entries.length ∨ ctx.error then { ctx with error := true }
  else if ctx.strBufSize < ctx.strBuf.length + s.length + 1 then { ctx with error := true }
  else
    { ctx with
      entries := ctx.entries ++ [⟨tag, 0, ctx.strBuf.length⟩]
      strBuf := ctx.strBuf ++ s ++ [0] }

/-- `_emit_num`. -/
def emitNum (tag : Tag) (val : ℚ) : Ctx :=
  if ctx.maxEntries ≤ ctx.entries.length ∨ ctx.error then { ctx with error := true }
  else { ctx with entries := ctx.entries ++ [⟨tag, val, -1⟩] }

/-- `_emit_marker`. -/
def emitMarker (tag : Tag) : Ctx := ctx.emitNum tag 0

end Ctx

mutual

/-- `_walk_val`. -/
def walkVal (ctx : Ctx) (val : Val) : Ctx :=
  if ctx.error then ctx
  else
    match val with
    | .null => ctx.emitMarker .null
    | .bool b => ctx.emitNum .bool (if b then 1 else 0)
    | .int i => ctx.emitNum .int (numberOf i)
    | .real x => ctx.emitNum .real x
    | .str s => ctx.emitString .string s
    | .arr elements => (walkElements (ctx.emitMarker .arrayStart) elements).emitMarker .arrayEnd
    | .obj members => (walkMembers (ctx.emitMarker .objStart) members).emitMarker .objEnd

/-- The loop over the elements of an array. -/
def walkElements (ctx : Ctx) : List Val → Ctx
  | [] => ctx
  | child :: rest => walkElements (walkVal ctx child) rest

/-- The loop over the keys and values of an object. -/
def walkMembers (ctx : Ctx) : List (List UInt8 × Val) → Ctx
  | [] => ctx
  | (key, child) :: rest => walkMembers (walkVal (ctx.emitString .key key) child) rest

end

variable (yyjson : List UInt8 → Option Val)

/-- `lush_json_parse`: what is in the arrays, unless it returns -1. -/
def lushJsonParse (json : List UInt8) (maxEntries strBufSize : ℤ) : Option Ctx :=
  match yyjson json with
  | none => none
  | some root =>
      let ctx := walkVal ⟨[], [], maxEntries, strBufSize, false⟩ root
      if ctx.error then none else some ctx

/-! ## Reading -/

/-- `(to-int x)`, for an `intg` of 64 bits. -/
def toInt (x : ℚ) : ℚ :=
  let i := Int.sign x.num * (x.num.natAbs / x.den : ℕ)
  if -2 ^ 63 ≤ i ∧ i < 2 ^ 63 then numberOf i else -2 ^ 63

/-- The arrays that `json-parse` allocates, with zeros after what has been written. -/
structure Stream where
  maxEntries : ℕ
  entries : List Entry
  strBuf : List UInt8

/-- `(type-tags p)`, `(num-vals p)` and `(str-offsets p)`. -/
def Stream.entry (a : Stream) (p : ℕ) : Except Fault Entry :=
  if p < a.maxEntries then .ok (a.entries.getD p ⟨.null, 0, 0⟩)
  else .error (.error "subscript out of range")

/-- `_json-extract-string`. -/
def extractString (buf : List UInt8) (offset : ℤ) : Except Fault CString :=
  if offset < 0 then .error (.error "subscript out of range")
  else .ok (cstring (buf.drop offset.toNat))

section

variable (a : Stream) (n : ℕ)

mutual

/-- `_json-reconstruct`, with a bound on the number of calls and rounds inside each other. -/
def reconstruct : ℕ → ℕ → Except Fault (Value × ℕ)
  | 0, _ => .error .depth
  | fuel + 1, pos =>
      match a.entry pos with
      | .error e => .error e
      | .ok entry =>
          match entry.tag with
          | .null => .ok (.nil, pos + 1)
          | .bool => .ok (if entry.num = 1 then .t else .nil, pos + 1)
          | .int => .ok (.number (toInt entry.num), pos + 1)
          | .real => .ok (.number entry.num, pos + 1)
          | .string => do
              let s ← extractString a.strBuf entry.offset
              .ok (.string s, pos + 1)
          | .arrayStart => do
              let r ← readElements fuel (pos + 1) []
              .ok (list r.1, r.2 + 1)
          | .objStart => do
              let r ← readMembers fuel (pos + 1) []
              .ok (list r.1, r.2 + 1)
          | _ => .ok (.nil, pos + 1)

/-- The loop over the elements of an array. -/
def readElements : ℕ → ℕ → List Value → Except Fault (List Value × ℕ)
  | 0, _, _ => .error .depth
  | fuel + 1, p, result =>
      if n ≤ p then .ok (result, p)
      else
        match a.entry p with
        | .error e => .error e
        | .ok entry =>
            if entry.tag = .arrayEnd then .ok (result, p)
            else do
              let r ← reconstruct fuel p
              readElements fuel r.2 (result ++ [r.1])

/-- The loop over the members of an object. -/
def readMembers : ℕ → ℕ → List Value → Except Fault (List Value × ℕ)
  | 0, _, _ => .error .depth
  | fuel + 1, p, result =>
      if n ≤ p then .ok (result, p)
      else
        match a.entry p with
        | .error e => .error e
        | .ok entry =>
            if entry.tag = .objEnd then .ok (result, p)
            else if entry.tag = .key then do
              let key ← extractString a.strBuf entry.offset
              let r ← reconstruct fuel (p + 1)
              readMembers fuel r.2 (result ++ [.cons (.string key) r.1])
            else
              -- nothing changes in such a round
              readMembers fuel p result

end

end

/-- What `json-parse` makes the arrays for. -/
def maxEntries (slen : ℕ) : ℕ := 4 * max 64 slen

def strBufSize (slen : ℕ) : ℕ := 2 * max 64 slen

/-- `json-parse`; where the parser fails it prints a line, and returns `()`. -/
def jsonParse (s : CString) : Except Fault Value :=
  let slen := s.bytes.length
  match lushJsonParse yyjson s.bytes (asInt (maxEntries slen)) (asInt (strBufSize slen)) with
  | none => .ok .nil
  | some ctx => do
      let n := ctx.entries.length
      let r ← reconstruct ⟨maxEntries slen, ctx.entries, ctx.strBuf⟩ n (2 * n) 0
      .ok r.1

end Lush.Json
