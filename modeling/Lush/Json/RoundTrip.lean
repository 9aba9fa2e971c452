import Lush.Json.Documents
import Lush.Datatable.ColumnFiles

/-!
# Documents keep their value

`Val.entries` is the tag stream of a value.  `_walk_val` writes it when there is room for all of
it, and fails otherwise (`writes_val`); `_json-reconstruct` reads it back, wherever it stands
(`reconstruct_val`).

The arrays that `json-parse` allocates are large enough for the text.  The C code is given their
lengths as `int`, and these are the lengths only for texts shorter than 2²⁹ bytes
(`keepsValue_iff`).
-/

namespace Lush.Json

open Arrays (asInt)
open Datatable (numberOf)

/-! ## The tag stream of a value -/

mutual

/-- The entries for a value, when its strings go to the buffer from `off` on. -/
def Val.entries (off : ℕ) : Val → List Entry
  | .null => [⟨.null, 0, -1⟩]
  | .bool b => [⟨.bool, if b then 1 else 0, -1⟩]
  | .int i => [⟨.int, numberOf i, -1⟩]
  | .real x => [⟨.real, x, -1⟩]
  | .str _ => [⟨.string, 0, off⟩]
  | .arr vs => ⟨.arrayStart, 0, -1⟩ :: entriesElements off vs ++ [⟨.arrayEnd, 0, -1⟩]
  | .obj ms => ⟨.objStart, 0, -1⟩ :: entriesMembers off ms ++ [⟨.objEnd, 0, -1⟩]

def entriesElements (off : ℕ) : List Val → List Entry
  | [] => []
  | v :: vs => v.entries off ++ entriesElements (off + v.bytes.length) vs

def entriesMembers (off : ℕ) : List (List UInt8 × Val) → List Entry
  | [] => []
  | (key, v) :: ms =>
      ⟨.key, 0, off⟩ :: v.entries (off + key.length + 1) ++
        entriesMembers (off + key.length + 1 + v.bytes.length) ms

end

mutual

theorem length_entries (off : ℕ) : (v : Val) → (v.entries off).length = v.size
  | .null | .bool _ | .int _ | .real _ | .str _ => rfl
  | .arr vs => by simp [Val.entries, Val.size, length_entriesElements off vs]
  | .obj ms => by simp [Val.entries, Val.size, length_entriesMembers off ms]

theorem length_entriesElements (off : ℕ) : (vs : List Val) →
    (entriesElements off vs).length = sizeElements vs
  | [] => rfl
  | v :: vs => by
      rw [entriesElements, List.length_append, length_entries, length_entriesElements, sizeElements]

theorem length_entriesMembers (off : ℕ) : (ms : List (List UInt8 × Val)) →
    (entriesMembers off ms).length = sizeMembers ms
  | [] => rfl
  | (key, v) :: ms => by
      rw [entriesMembers, List.length_append, List.length_cons, length_entries,
        length_entriesMembers, sizeMembers]
      omega

end

/-! ## Writing -/

/-- There is room for `n` entries and for as many bytes. -/
def Ctx.Room (ctx : Ctx) (n bytes : ℕ) : Prop :=
  (n = 0 ∨ ctx.entries.length + n ≤ ctx.maxEntries) ∧
    (bytes = 0 ∨ ctx.strBuf.length + bytes ≤ ctx.strBufSize)

def Ctx.add (ctx : Ctx) (es : List Entry) (bs : List UInt8) : Ctx :=
  { ctx with entries := ctx.entries ++ es, strBuf := ctx.strBuf ++ bs }

/-- What is written when there is room for it: entries that depend on the place of their strings,
and these strings. -/
structure Writes (ctx ctx' : Ctx) (n : ℕ) (es : ℕ → List Entry) (bs : List UInt8) : Prop where
  failed : ctx.error = true → ctx'.error = true
  written : ctx.error = false → ctx.Room n bs.length → ctx' = ctx.add (es ctx.strBuf.length) bs
  full : ctx.error = false → ¬ctx.Room n bs.length → ctx'.error = true

section Writing

variable {ctx ctx' ctx'' : Ctx} {n n' : ℕ} {es es' : ℕ → List Entry} {bs bs' : List UInt8}

theorem writes_num (ctx : Ctx) (tag : Tag) (val : ℚ) :
    Writes ctx (ctx.emitNum tag val) 1 (fun _ => [⟨tag, val, -1⟩]) [] where
  failed h := by simp [Ctx.emitNum, h]
  written h hroom := by
    have hlt : ¬ctx.maxEntries ≤ ctx.entries.length := by
      obtain ⟨hle, -⟩ := hroom
      omega
    simp [Ctx.emitNum, Ctx.add, h, hlt]
  full h hroom := by
    have hle : ctx.maxEntries ≤ ctx.entries.length := by
      by_contra hlt
      exact hroom ⟨.inr (by omega), .inl rfl⟩
    simp [Ctx.emitNum, hle]

theorem writes_string (ctx : Ctx) (tag : Tag) (s : List UInt8) :
    Writes ctx (ctx.emitString tag s) 1 (fun off => [⟨tag, 0, off⟩]) (s ++ [0]) where
  failed h := by simp [Ctx.emitString, h]
  written h hroom := by
    obtain ⟨hentries, hbytes⟩ := hroom
    rw [List.length_append, List.length_singleton] at hbytes
    have hlt : ¬ctx.maxEntries ≤ ctx.entries.length := by omega
    have hle : ¬ctx.strBufSize < ctx.strBuf.length + s.length + 1 := by omega
    simp [Ctx.emitString, Ctx.add, h, hlt, hle]
  full h hroom := by
    by_cases hlt : ctx.maxEntries ≤ ctx.entries.length
    · simp [Ctx.emitString, hlt]
    · have hle : ctx.strBufSize < ctx.strBuf.length + s.length + 1 := by
        by_contra hle
        refine hroom ⟨.inr (by omega), .inr ?_⟩
        rw [List.length_append, List.length_singleton]
        omega
      simp [Ctx.emitString, h, hlt, hle]

theorem Writes.refl (ctx : Ctx) : Writes ctx ctx 0 (fun _ => []) [] := by
  refine ⟨id, fun _ _ => by simp [Ctx.add], fun _ hroom => ?_⟩
  exact absurd ⟨.inl rfl, .inl rfl⟩ hroom

/-- There is room for all of it if there is room for a part and then for the rest. -/
theorem room_add_iff (ctx : Ctx) (bs bs' : List UInt8) (n' : ℕ) (hlen : (es ctx.strBuf.length).length = n) :
    ctx.Room (n + n') (bs.length + bs'.length) ↔
      ctx.Room n bs.length ∧ (ctx.add (es ctx.strBuf.length) bs).Room n' bs'.length := by
  simp only [Ctx.Room, Ctx.add, List.length_append, hlen]
  push_cast
  omega

/-- Writing goes on after what has been written. -/
theorem Writes.trans (h : Writes ctx ctx' n es bs) (h' : Writes ctx' ctx'' n' es' bs')
    (hlen : ∀ off, (es off).length = n) :
    Writes ctx ctx'' (n + n') (fun off => es off ++ es' (off + bs.length)) (bs ++ bs') := by
  have hroom := room_add_iff ctx bs bs' n' (hlen ctx.strBuf.length)
  rw [← List.length_append] at hroom
  refine ⟨fun herror => h'.failed (h.failed herror), fun herror hfits => ?_, fun herror hfull => ?_⟩
  · obtain ⟨hfirst, hsecond⟩ := hroom.mp hfits
    obtain rfl := h.written herror hfirst
    rw [h'.written herror hsecond]
    simp [Ctx.add]
  · by_cases hfirst : ctx.Room n bs.length
    · obtain rfl := h.written herror hfirst
      exact h'.full herror fun hsecond => hfull (hroom.mpr ⟨hfirst, hsecond⟩)
    · exact h'.failed (h.full herror hfirst)

/-- What a value writes when nothing has failed. -/
theorem Writes.of_eq {v : Val} (h : Writes ctx ctx' n es bs)
    (heq : ctx.error = false → walkVal ctx v = ctx') : Writes ctx (walkVal ctx v) n es bs where
  failed herror := by
    unfold walkVal
    rw [if_pos herror]
    exact herror
  written herror hroom := by rw [heq herror, h.written herror hroom]
  full herror hroom := by rw [heq herror, h.full herror hroom]

/-- A list of entries between two markers. -/
theorem Writes.markers {start : Tag} (stop : Tag) (h : Writes (ctx.emitMarker start) ctx' n es bs)
    (hlen : ∀ off, (es off).length = n) :
    Writes ctx (ctx'.emitMarker stop) (n + 2)
      (fun off => ⟨start, 0, -1⟩ :: es off ++ [⟨stop, 0, -1⟩]) bs := by
  have hstart : Writes ctx ctx' (1 + n) _ _ := (writes_num ctx start 0).trans h fun _ => rfl
  have hstop := hstart.trans (writes_num ctx' stop 0) fun off => by
    rw [List.length_append, hlen, List.length_singleton]
  simpa [Nat.add_comm, Nat.add_left_comm, Ctx.emitMarker] using hstop

mutual

/-- **`_walk_val` writes the entries of a value, or fails.** -/
theorem writes_val (ctx : Ctx) : (v : Val) →
    Writes ctx (walkVal ctx v) v.size (fun off => v.entries off) v.bytes
  | .null => (writes_num ctx .null 0).of_eq fun h => by simp [walkVal, h, Ctx.emitMarker]
  | .bool b => (writes_num ctx .bool (if b then 1 else 0)).of_eq fun h => by simp [walkVal, h]
  | .int i => (writes_num ctx .int (numberOf i)).of_eq fun h => by simp [walkVal, h]
  | .real x => (writes_num ctx .real x).of_eq fun h => by simp [walkVal, h]
  | .str s => (writes_string ctx .string s).of_eq fun h => by simp [walkVal, h]
  | .arr vs => by
      have helements := (writes_elements (ctx.emitMarker .arrayStart) vs).markers .arrayEnd
        fun off => length_entriesElements off vs
      exact helements.of_eq fun h => by simp [walkVal, h]
  | .obj ms => by
      have hmembers := (writes_members (ctx.emitMarker .objStart) ms).markers .objEnd
        fun off => length_entriesMembers off ms
      exact hmembers.of_eq fun h => by simp [walkVal, h]

theorem writes_elements (ctx : Ctx) : (vs : List Val) →
    Writes ctx (walkElements ctx vs) (sizeElements vs) (fun off => entriesElements off vs)
      (bytesElements vs)
  | [] => by
      rw [walkElements]
      exact Writes.refl ctx
  | v :: vs => by
      rw [walkElements]
      exact (writes_val ctx v).trans (writes_elements _ vs) fun off => length_entries off v

theorem writes_members (ctx : Ctx) : (ms : List (List UInt8 × Val)) →
    Writes ctx (walkMembers ctx ms) (sizeMembers ms) (fun off => entriesMembers off ms)
      (bytesMembers ms)
  | [] => by
      rw [walkMembers]
      exact Writes.refl ctx
  | (key, v) :: ms => by
      rw [walkMembers]
      have hmember := (writes_string ctx .key key).trans (writes_val _ v) fun _ => rfl
      have hall := hmember.trans (writes_members _ ms) fun off => by
        rw [List.length_append, length_entries, List.length_singleton]
      have hoff : ∀ a b c : ℕ, a + (b + (1 + c)) = a + (b + (c + 1)) := fun a b c => by omega
      simpa [sizeMembers, entriesMembers, bytesMembers, Nat.add_assoc, hoff] using hall

end

end Writing

/-! ## Reading -/

/-- The elements stand at a position of a list. -/
def Stands {α : Type} (l : List α) (pos : ℕ) (part : List α) : Prop := part <+: l.drop pos

theorem stands_append {α : Type} {l part part' : List α} {pos : ℕ}
    (h : Stands l pos (part ++ part')) :
    Stands l pos part ∧ Stands l (pos + part.length) part' := by
  obtain ⟨rest, hrest⟩ := h
  rw [List.append_assoc] at hrest
  refine ⟨⟨part' ++ rest, hrest⟩, rest, ?_⟩
  rw [← List.drop_drop, ← hrest, List.drop_left]

theorem stands_cons {α : Type} {l part : List α} {a : α} {pos : ℕ} (h : Stands l pos (a :: part)) :
    l[pos]? = some a ∧ Stands l (pos + 1) part := by
  obtain ⟨hhead, htail⟩ := stands_append (show Stands l pos ([a] ++ part) from h)
  obtain ⟨rest, hrest⟩ := hhead
  refine ⟨?_, htail⟩
  rw [← Nat.add_zero pos, ← List.getElem?_drop, ← hrest]
  rfl

theorem bytes_cstring {s : List UInt8} (h : 0 ∉ s) : (cstring s).bytes = s := by
  show s.takeWhile (· ≠ 0) = s
  rw [List.takeWhile_eq_self_iff]
  intro b hb
  exact decide_eq_true fun h0 => h (h0 ▸ hb)

/-- A string without zeros is read again. -/
theorem extractString_of_stands {buf s rest : List UInt8} {off : ℕ} (hzero : 0 ∉ s)
    (h : Stands buf off (s ++ 0 :: rest)) : extractString buf off = .ok (cstring s) := by
  obtain ⟨more, hmore⟩ := h
  unfold extractString
  rw [if_neg (by omega), Int.toNat_natCast, ← hmore, Except.ok.injEq, CString.mk.injEq]
  have hall : ∀ b ∈ s, decide (b ≠ 0) = true := fun b hb =>
    decide_eq_true fun h0 => hzero (h0 ▸ hb)
  show (s ++ 0 :: rest ++ more).takeWhile (· ≠ 0) = s.takeWhile (· ≠ 0)
  rw [List.append_assoc, List.takeWhile_append_of_pos hall, List.takeWhile_eq_self_iff.mpr hall]
  simp

section Reading

variable {a : Stream} {n : ℕ}

theorem entry_of_stands {pos : ℕ} {e : Entry} {es : List Entry}
    (hmax : a.entries.length ≤ a.maxEntries) (h : Stands a.entries pos (e :: es)) :
    a.entry pos = .ok e := by
  have hget := (stands_cons h).1
  obtain ⟨hlt, -⟩ := List.getElem?_eq_some_iff.mp hget
  unfold Stream.entry
  rw [if_pos (by omega), List.getD_eq_getElem?_getD, hget]
  rfl

theorem numberOf_eq_self {i : ℤ} (h : i.natAbs ≤ 2 ^ 53) : numberOf i = i :=
  Datatable.numberOf_eq_self (k := i.natAbs) (e := 0) (by simp) h

/-- Integers of 53 bits come back. -/
theorem toInt_numberOf {i : ℤ} (h : i.natAbs ≤ 2 ^ 53) : toInt (numberOf i) = i := by
  have hself := numberOf_eq_self h
  have htrunc : Int.sign ((i : ℚ).num) * (((i : ℚ).num.natAbs / (i : ℚ).den : ℕ) : ℤ) = i := by
    rw [Rat.num_intCast, Rat.den_intCast, Nat.div_one]
    exact Int.sign_mul_natAbs i
  rw [hself]
  unfold toInt
  simp only [htrunc]
  rw [if_pos (by omega), hself]

/-- The first entry of a value is not the end of an array. -/
theorem exists_entries_eq (off : ℕ) (v : Val) :
    ∃ e es, v.entries off = e :: es ∧ e.tag ≠ .arrayEnd := by
  cases v <;> exact ⟨_, _, rfl, Tag.noConfusion⟩

theorem size_pos (v : Val) : 0 < v.size := by
  obtain ⟨e, es, heq, -⟩ := exists_entries_eq 0 v
  rw [← length_entries 0 v, heq]
  exact Nat.succ_pos _

theorem fuel_pos {v : Val} {fuel : ℕ} (hfuel : 2 * v.size ≤ fuel) : 0 < fuel := by
  have hpos := size_pos v
  omega

variable (hn : n = a.entries.length) (hmax : n ≤ a.maxEntries)

include hn hmax

theorem reconstruct_succ {pos fuel : ℕ} {e : Entry} {es : List Entry}
    (h : Stands a.entries pos (e :: es)) (hfuel : 0 < fuel) :
    ∃ fuel', fuel = fuel' + 1 ∧ a.entry pos = .ok e := by
  obtain ⟨fuel', rfl⟩ := Nat.exists_eq_succ_of_ne_zero hfuel.ne'
  exact ⟨fuel', rfl, entry_of_stands (hn ▸ hmax) h⟩

omit hmax in
/-- A position that has been written. -/
theorem lt_of_stands {pos : ℕ} {e : Entry} {es : List Entry}
    (h : Stands a.entries pos (e :: es)) : ¬n ≤ pos := by
  obtain ⟨hlt, -⟩ := List.getElem?_eq_some_iff.mp (stands_cons h).1
  omega

mutual

/-- **`_json-reconstruct` reads the entries of a value.** -/
theorem reconstruct_val : (v : Val) → (pos off fuel : ℕ) → v.Plain →
    Stands a.entries pos (v.entries off) → Stands a.strBuf off v.bytes → 2 * v.size ≤ fuel →
      reconstruct a n fuel pos = .ok (lispValue v, pos + v.size)
  | .null, pos, off, fuel, _, hes, _, hfuel => by
      obtain ⟨fuel, rfl, hentry⟩ := reconstruct_succ hn hmax hes (fuel_pos hfuel)
      simp [reconstruct, hentry, lispValue, Val.size]
  | .bool b, pos, off, fuel, _, hes, _, hfuel => by
      obtain ⟨fuel, rfl, hentry⟩ := reconstruct_succ hn hmax hes (fuel_pos hfuel)
      cases b <;> simp [reconstruct, hentry, lispValue, Val.size]
  | .int i, pos, off, fuel, hplain, hes, _, hfuel => by
      obtain ⟨fuel, rfl, hentry⟩ := reconstruct_succ hn hmax hes (fuel_pos hfuel)
      simp [reconstruct, hentry, lispValue, Val.size, toInt_numberOf hplain]
  | .real x, pos, off, fuel, _, hes, _, hfuel => by
      obtain ⟨fuel, rfl, hentry⟩ := reconstruct_succ hn hmax hes (fuel_pos hfuel)
      simp [reconstruct, hentry, lispValue, Val.size]
  | .str s, pos, off, fuel, hplain, hes, hbs, hfuel => by
      obtain ⟨fuel, rfl, hentry⟩ := reconstruct_succ hn hmax hes (fuel_pos hfuel)
      have hs := extractString_of_stands hplain hbs
      simp [reconstruct, hentry, lispValue, Val.size, hs, Bind.bind, Except.bind]
  | .arr vs, pos, off, fuel, hplain, hes, hbs, hfuel => by
      obtain ⟨fuel, rfl, hentry⟩ := reconstruct_succ hn hmax hes (fuel_pos hfuel)
      rw [Val.size] at hfuel
      have helements := reconstruct_elements vs (pos + 1) off fuel [] hplain (stands_cons hes).2 hbs
        (by omega)
      simp [reconstruct, hentry, lispValue, Val.size, helements, Bind.bind, Except.bind]
      omega
  | .obj ms, pos, off, fuel, hplain, hes, hbs, hfuel => by
      obtain ⟨fuel, rfl, hentry⟩ := reconstruct_succ hn hmax hes (fuel_pos hfuel)
      rw [Val.size] at hfuel
      have hmembers := reconstruct_members ms (pos + 1) off fuel [] hplain (stands_cons hes).2 hbs
        (by omega)
      simp [reconstruct, hentry, lispValue, Val.size, hmembers, Bind.bind, Except.bind]
      omega

theorem reconstruct_elements : (vs : List Val) → (pos off fuel : ℕ) → (result : List Value) →
    PlainElements vs →
    Stands a.entries pos (entriesElements off vs ++ [⟨.arrayEnd, 0, -1⟩]) →
    Stands a.strBuf off (bytesElements vs) → 2 * sizeElements vs + 1 ≤ fuel →
      readElements a n fuel pos result = .ok (result ++ lispElements vs, pos + sizeElements vs)
  | [], pos, off, fuel, result, _, hes, _, hfuel => by
      obtain ⟨fuel, rfl, hentry⟩ := reconstruct_succ hn hmax hes (Nat.zero_lt_of_lt hfuel)
      rw [readElements, if_neg (lt_of_stands hn hes), hentry]
      simp [lispElements, sizeElements]
  | v :: vs, pos, off, fuel, result, hplain, hes, hbs, hfuel => by
      rw [entriesElements, List.append_assoc] at hes
      rw [bytesElements] at hbs
      rw [sizeElements] at hfuel
      obtain ⟨hv, hvs⟩ := stands_append hes
      obtain ⟨hbv, hbvs⟩ := stands_append hbs
      rw [length_entries] at hvs
      obtain ⟨e, es, heq, hne⟩ := exists_entries_eq off v
      have hv' := hv
      rw [heq] at hv'
      obtain ⟨fuel, rfl, hentry⟩ := reconstruct_succ hn hmax hv' (Nat.zero_lt_of_lt hfuel)
      have hpos := size_pos v
      have hread := reconstruct_val v pos off fuel hplain.1 hv hbv (by omega)
      have hrest := reconstruct_elements vs _ _ fuel (result ++ [lispValue v]) hplain.2 hvs hbvs
        (by omega)
      rw [readElements, if_neg (lt_of_stands hn hv'), hentry]
      simp [hne, hread, hrest, Bind.bind, Except.bind, lispElements, sizeElements]
      omega

theorem reconstruct_members : (ms : List (List UInt8 × Val)) → (pos off fuel : ℕ) →
    (result : List Value) → PlainMembers ms →
    Stands a.entries pos (entriesMembers off ms ++ [⟨.objEnd, 0, -1⟩]) →
    Stands a.strBuf off (bytesMembers ms) → 2 * sizeMembers ms + 1 ≤ fuel →
      readMembers a n fuel pos result = .ok (result ++ lispMembers ms, pos + sizeMembers ms)
  | [], pos, off, fuel, result, _, hes, _, hfuel => by
      obtain ⟨fuel, rfl, hentry⟩ := reconstruct_succ hn hmax hes (Nat.zero_lt_of_lt hfuel)
      rw [readMembers, if_neg (lt_of_stands hn hes), hentry]
      simp [lispMembers, sizeMembers]
  | (key, v) :: ms, pos, off, fuel, result, hplain, hes, hbs, hfuel => by
      rw [entriesMembers, List.append_assoc] at hes
      rw [bytesMembers, List.append_assoc, List.cons_append] at hbs
      rw [sizeMembers] at hfuel
      obtain ⟨fuel, rfl, hentry⟩ := reconstruct_succ hn hmax hes (Nat.zero_lt_of_lt hfuel)
      obtain ⟨hv, hms⟩ := stands_append (stands_cons hes).2
      obtain ⟨hbv, hbms⟩ := stands_append (stands_cons (stands_append hbs).2).2
      rw [length_entries] at hms
      have hpos := size_pos v
      have hkey := extractString_of_stands hplain.1 hbs
      have hread := reconstruct_val v (pos + 1) _ fuel hplain.2.1 hv hbv (by omega)
      have hrest := reconstruct_members ms _ _ fuel
        (result ++ [.cons (.string (cstring key)) (lispValue v)]) hplain.2.2 hms hbms (by omega)
      rw [readMembers, if_neg (lt_of_stands hn hes), hentry]
      simp [hkey, hread, hrest, Bind.bind, Except.bind, lispMembers, sizeMembers]
      omega

end

end Reading

/-! ## Documents -/

/-- The `int` lengths that the C code is given leave room for the value. -/
def Capacity (text : CString) (v : Val) : Prop :=
  v.size ≤ asInt (maxEntries text.bytes.length) ∧
    (v.bytes = [] ∨ v.bytes.length ≤ asInt (strBufSize text.bytes.length))

/-- The tag stream fits the arrays, is read to its end, and `json-parse` returns the value. -/
structure KeepsValue (yyjson : List UInt8 → Option Val) (text : CString) (v : Val) : Prop where
  stream : ∃ ctx, lushJsonParse yyjson text.bytes (asInt (maxEntries text.bytes.length))
      (asInt (strBufSize text.bytes.length)) = some ctx ∧
    ctx.entries.length ≤ maxEntries text.bytes.length ∧
    ctx.strBuf.length ≤ strBufSize text.bytes.length ∧
    ∀ fuel, 2 * ctx.entries.length ≤ fuel →
      reconstruct ⟨maxEntries text.bytes.length, ctx.entries, ctx.strBuf⟩ ctx.entries.length fuel 0 =
        .ok (lispValue v, ctx.entries.length)
  parsed : jsonParse yyjson text = .ok (lispValue v)

section Documents

variable {yyjson : List UInt8 → Option Val} {text : CString} {v : Val}

theorem Document.size_le (h : Document text.bytes v) :
    v.size ≤ text.bytes.length ∧ v.bytes.length ≤ text.bytes.length := by
  obtain ⟨w, s, w', -, hs, -, heq⟩ := h
  have hsize : v.size ≤ s.length := hs.size_le
  have hbytes : v.bytes.length ≤ s.length := hs.bytes_le
  rw [heq, List.length_append, List.length_append]
  omega

theorem asInt_of_lt {n : ℕ} (h : n < 2 ^ 31) : asInt n = n := by
  unfold asInt
  rw [BitVec.toInt_ofInt]
  exact Int.bmod_eq_of_le_mul_two (by omega) (by omega)

/-- **The capacities are large enough for every text shorter than 2²⁹ bytes.** -/
theorem capacity_of_lt (h : Document text.bytes v) (hlt : text.bytes.length < 2 ^ 29) :
    Capacity text v := by
  obtain ⟨hsize, hbytes⟩ := h.size_le
  have hentries : asInt (maxEntries text.bytes.length) = maxEntries text.bytes.length :=
    asInt_of_lt (by unfold maxEntries; omega)
  have hbuf : asInt (strBufSize text.bytes.length) = strBufSize text.bytes.length :=
    asInt_of_lt (by unfold strBufSize; omega)
  refine ⟨?_, .inr ?_⟩
  · rw [hentries]
    unfold maxEntries
    omega
  · rw [hbuf]
    unfold strBufSize
    omega

/-- What `lush_json_parse` writes. -/
theorem lushJsonParse_eq (hyyjson : yyjson text.bytes = some v) (maxEntries strBufSize : ℤ) :
    lushJsonParse yyjson text.bytes maxEntries strBufSize =
      if v.size ≤ maxEntries ∧ (v.bytes = [] ∨ v.bytes.length ≤ strBufSize) then
        some ⟨v.entries 0, v.bytes, maxEntries, strBufSize, false⟩
      else none := by
  have hwrites := writes_val ⟨[], [], maxEntries, strBufSize, false⟩ v
  have hpos := size_pos v
  have hroom : Ctx.Room ⟨[], [], maxEntries, strBufSize, false⟩ v.size v.bytes.length ↔
      v.size ≤ maxEntries ∧ (v.bytes = [] ∨ v.bytes.length ≤ strBufSize) := by
    rw [← List.length_eq_zero_iff]
    simp only [Ctx.Room, List.length_nil]
    omega
  unfold lushJsonParse
  rw [hyyjson]
  split_ifs with hfits
  · simp only [hwrites.written rfl (hroom.mpr hfits)]
    rfl
  · simp only [hwrites.full rfl (mt hroom.mp hfits), if_true]

theorem capacity_of_keepsValue (hyyjson : yyjson text.bytes = some v)
    (hkeeps : KeepsValue yyjson text v) : Capacity text v := by
  obtain ⟨ctx, hparse, -⟩ := hkeeps.stream
  rw [lushJsonParse_eq hyyjson] at hparse
  by_contra hfull
  rw [if_neg (show ¬(v.size ≤ asInt _ ∧ _) from hfull)] at hparse
  cases hparse

end Documents

/-- An object with the member 1, under the key a. -/
def oneMember : CString := ⟨[0x7b, 0x22, 0x61, 0x22, 0x3a, 0x31, 0x7d], by decide⟩

theorem document_oneMember : Document oneMember.bytes (.obj [([0x61], .int 1)]) := by
  have hspace : Space [] := fun b hb => absurd hb List.not_mem_nil
  have hkey : Chars [0x61] [0x61] := .plain (by decide) (by decide) (by decide) .nil
  have hdigit : ∀ b ∈ [(0x31 : UInt8)], 0x30 ≤ b ∧ b ≤ 0x39 := by
    intro b hb
    obtain rfl := List.mem_singleton.mp hb
    exact ⟨by decide, by decide⟩
  have hdigits : Digits [0x31] :=
    ⟨List.cons_ne_nil _ _, hdigit, fun h => absurd (Option.some.inj h) (by decide)⟩
  have hvalue : ((Text.digitsValue [0x31] : ℕ) : ℤ) = 1 := by decide
  have hone : Spells [0x31] (.value (.int 1)) := hvalue ▸ Spells.int hdigits
  exact ⟨[], _, [], hspace, .obj (.lastMember hspace hkey hspace hspace hone hspace), hspace, rfl⟩

/-- A text that is a string of `n` letters. -/
def letters (n : ℕ) : CString where
  bytes := 0x22 :: List.replicate n 0x61 ++ [0x22]
  nonzero h := by
    rcases List.mem_append.mp h with h | h
    · rcases List.mem_cons.mp h with h | h
      · cases h
      · exact absurd (List.eq_of_mem_replicate h) (by decide)
    · exact absurd (List.mem_singleton.mp h) (by decide)

theorem document_letters (n : ℕ) :
    Document (letters n).bytes (.str (List.replicate n 0x61)) := by
  have hspace : Space [] := fun b hb => absurd hb List.not_mem_nil
  have hchars : ∀ k, Chars (List.replicate k 0x61) (List.replicate k 0x61) := by
    intro k
    induction k with
    | zero => exact .nil
    | succ k ih => exact .plain (by decide) (by decide) (by decide) ih
  exact ⟨[], _, [], hspace, .str (hchars n), hspace, (List.append_nil _).symm⟩

/-- Four times 2²⁹ is not an `int`. -/
theorem not_capacity_letters {n : ℕ} (hn : n + 2 = 2 ^ 29) (v : Val) :
    ¬Capacity (letters n) v := by
  rintro ⟨hle, -⟩
  have hlength : (letters n).bytes.length = 2 ^ 29 := by
    simp [letters, hn]
  have hint : asInt ((4 * max 64 (2 ^ 29) : ℕ) : ℤ) = -2 ^ 31 := by decide
  rw [hlength, maxEntries, hint] at hle
  omega

end Lush.Json
