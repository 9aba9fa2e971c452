import Lush.Httpd.JsonEncode
import Lush.Ints

/-!
# Faithful texts

What is written for a value is clean exactly when the strings of the value are, and then it is a
text of the grammar; it stands for the value when the integers keep their digits.  The four parts
of the encoder are taken together, in an induction on the value (`encodes_all`).  As a text
stands for one value only, there is no other way to read it (`jsonEncode_faithful_iff`).
-/

namespace Lush.Httpd

open Json Text Binary64

/-! ## What the parts of the encoder write -/

/-- What is written for a value. -/
def Writes (v : Value) : Prop :=
  ∃ text, jsonEncode v = .ok text ∧ (Clean text ↔ Legible v) ∧
    (Legible v → ∃ d, Derives text (.value d) ∧ (lispValue d = v ↔ Exact v))

/-- What is written for the elements after the first. -/
def WritesItems (v : Value) : Prop :=
  ∃ more, encodeItems v = .ok more ∧ (∀ c ∈ more.head?, Separator c) ∧ (Clean more ↔ Legible v) ∧
    (Legible v → ∃ ds, (∀ s d, Derives s (.value d) → Derives (s ++ more) (.elements (d :: ds))) ∧
      (list (lispElements ds) = v ↔ Exact v))

/-- The text of a member without white space. -/
def Member (out key : List UInt8) (d : Val) : Prop :=
  ∃ k s, out = 0x22 :: (k ++ 0x22 :: 0x3a :: s) ∧ Chars k key ∧ Derives s (.value d)

/-- What is written for a pair. -/
def WritesPair (v : Value) : Prop :=
  ∃ out, encodePair v = .ok out ∧ (Clean out ↔ Legible v) ∧
    (Legible v → ∃ key d, Member out key d ∧
      (.cons (.string (cstring key)) (lispValue d) = v ↔ Exact v))

/-- What is written for the pairs after the first. -/
def WritesPairs (v : Value) : Prop :=
  ∃ more, encodePairs v = .ok more ∧ (∀ c ∈ more.head?, Separator c) ∧ (Clean more ↔ Legible v) ∧
    (Legible v → ∃ ms,
      (∀ out key d, Member out key d → Derives (out ++ more) (.members ((key, d) :: ms))) ∧
      (list (lispMembers ms) = v ↔ Exact v))

theorem space_nil : Space [] := fun _ hb => absurd hb List.not_mem_nil

theorem separator_of_numberChar {b : UInt8} (h : NumberChar b) : Separator b := by
  refine ⟨?_, h.printable⟩
  rcases h with ⟨-, hle⟩ | rfl | rfl | rfl | rfl | rfl
  · exact UInt8.lt_of_le_of_lt hle (by decide)
  all_goals decide

/-! ## Single values -/

theorem writes_nil : Writes .nil := by
  have hclean : Clean [ascii 'n', ascii 'u', ascii 'l', ascii 'l'] := clean_of_all (by decide)
  refine ⟨[ascii 'n', ascii 'u', ascii 'l', ascii 'l'], by rw [jsonEncode],
    iff_of_true hclean trivial, fun _ => ⟨.null, .null, iff_of_true ?_ trivial⟩⟩
  rw [lispValue]

theorem writes_t : Writes .t := by
  have hclean : Clean [ascii 't', ascii 'r', ascii 'u', ascii 'e'] := clean_of_all (by decide)
  refine ⟨[ascii 't', ascii 'r', ascii 'u', ascii 'e'], by rw [jsonEncode],
    iff_of_true hclean trivial, fun _ => ⟨.bool true, .true, iff_of_true ?_ trivial⟩⟩
  rw [lispValue, if_pos rfl]

theorem writes_number {x : ℚ} (h : Encodable (.number x)) : Writes (.number x) := by
  rw [Encodable] at h
  obtain ⟨n, hlt, rfl⟩ := h
  have htext : encodeNumber (n : ℚ) = strNumber (ofInt n) := by
    rw [encodeNumber, Int.floor_intCast, if_pos rfl]
  have hnumber := number_strNumber hlt
  refine ⟨strNumber (ofInt n), by rw [jsonEncode, htext], ?_, fun _ => ⟨_, .number hnumber, ?_⟩⟩
  · refine iff_of_true ?_ trivial
    exact clean_of_separators fun b hb => separator_of_numberChar (hnumber.chars b hb)
  · rw [lispValue, Exact, Int.floor_intCast, ← printedValue_eq_iff hlt]
    exact ⟨Value.number.inj, congrArg Value.number⟩

theorem writes_string {s : CString} (h : Encodable (.string s)) : Writes (.string s) := by
  rw [Encodable] at h
  have htext : encodeString s.bytes = quoted s.bytes := by
    rw [encodeString, if_neg (not_or.mpr h)]
  refine ⟨quoted s.bytes, by rw [jsonEncode, htext], ?_, fun hclean => ?_⟩
  · rw [Legible]
    exact clean_quoted_iff
  · rw [Legible] at hclean
    refine ⟨.str s.bytes, .str (chars_jsonEscape hclean.2), ?_⟩
    refine iff_of_true ?_ trivial
    rw [lispValue, cstring_bytes]

/-! ## Arrays -/

theorem writesItems_nil : WritesItems .nil := by
  refine ⟨[], by rw [encodeItems], fun c hc => absurd hc nofun,
    iff_of_true clean_nil trivial, fun _ => ⟨[], ?_, iff_of_true ?_ trivial⟩⟩
  · intro s d hs
    exact .lastElement space_nil hs space_nil
  · rw [lispElements]
    rfl

theorem list_cons_eq_iff {v item rest : Value} {vs : List Value} :
    list (v :: vs) = .cons item rest ↔ v = item ∧ list vs = rest := by
  rw [list, List.foldr_cons, Value.cons.injEq]
  rfl

theorem head_separator {c : UInt8} {s : List UInt8} (hc : Separator c) :
    ∀ c' ∈ (c :: s).head?, Separator c' := by
  intro c' hc'
  rwa [← Option.some.inj hc']

/-- The text of an element, with what is written for those after it. -/
theorem writesItems_cons {item rest : Value} (hitem : Writes item) (hrest : WritesItems rest) :
    WritesItems (.cons item rest) := by
  obtain ⟨out, hout, hclean, hderives⟩ := hitem
  obtain ⟨more, hmore, hhead, hclean', hderives'⟩ := hrest
  have hcomma : Separator (ascii ',') := by decide
  refine ⟨ascii ',' :: (out ++ more), ?_, head_separator hcomma, ?_, fun hlegible => ?_⟩
  · rw [encodeItems, hout, ok_bind, hmore, ok_bind]
  · rw [clean_cons_iff hcomma, clean_append_iff hhead, hclean, hclean', Legible]
  · rw [Legible] at hlegible
    obtain ⟨d, hd, hvalue⟩ := hderives hlegible.1
    obtain ⟨ds, hds, hvalues⟩ := hderives' hlegible.2
    refine ⟨d :: ds, fun s d' hs => ?_, ?_⟩
    · exact .element space_nil hs space_nil (hds out d hd)
    · rw [lispElements, list_cons_eq_iff, hvalue, hvalues, Exact]

theorem writes_array {item rest : Value} (hlist : jsonAlistP (.cons item rest) = .ok false)
    (hitem : Writes item) (hrest : WritesItems rest) : Writes (.cons item rest) := by
  obtain ⟨out, hout, hclean, hderives⟩ := hitem
  obtain ⟨more, hmore, hhead, hclean', hderives'⟩ := hrest
  have hopen : Separator (ascii '[') := by decide
  have hclose : Separator (ascii ']') := by decide
  refine ⟨ascii '[' :: (out ++ (more ++ [ascii ']'])), ?_, ?_, fun hlegible => ?_⟩
  · rw [jsonEncode, hlist, ok_bind, if_neg Bool.false_ne_true, hout, ok_bind, hmore, ok_bind]
  · rw [clean_cons_iff hopen, ← List.append_assoc, clean_append_cons_iff hclose,
      clean_append_iff hhead, hclean, hclean', and_iff_left clean_nil, Legible]
  · rw [Legible] at hlegible
    obtain ⟨d, hd, hvalue⟩ := hderives hlegible.1
    obtain ⟨ds, hds, hvalues⟩ := hderives' hlegible.2
    refine ⟨.arr (d :: ds), ?_, ?_⟩
    · rw [← List.append_assoc]
      exact .arr (hds out d hd)
    · rw [lispValue, lispElements, list_cons_eq_iff, hvalue, hvalues, Exact]

/-! ## Objects -/

theorem writesPair_cons {key : CString} {val : Value} (hval : Writes val) :
    WritesPair (.cons (.string key) val) := by
  obtain ⟨out, hout, hclean, hderives⟩ := hval
  have hcolon : Separator (ascii ':') := by decide
  refine ⟨quoted key.bytes ++ ascii ':' :: out, ?_, ?_, fun hlegible => ?_⟩
  · rw [encodePair, hout, ok_bind]
  · rw [clean_append_cons_iff hcolon, clean_quoted_iff, hclean, Legible, Legible]
  · rw [Legible, Legible] at hlegible
    obtain ⟨d, hd, hvalue⟩ := hderives hlegible.2
    refine ⟨key.bytes, d, ⟨jsonEscape key.bytes, out, ?_, chars_jsonEscape hlegible.1.2, hd⟩, ?_⟩
    · rw [quoted, List.cons_append, List.append_assoc]
      rfl
    · rw [cstring_bytes, Value.cons.injEq, eq_self, hvalue]
      exact Iff.rfl

theorem writesPairs_nil : WritesPairs .nil := by
  refine ⟨[], by rw [encodePairs], fun c hc => absurd hc nofun,
    iff_of_true clean_nil trivial, fun _ => ⟨[], ?_, iff_of_true ?_ trivial⟩⟩
  · rintro out key d ⟨k, s, rfl, hk, hs⟩
    rw [List.append_nil]
    have hmember := Derives.lastMember space_nil hk space_nil space_nil hs space_nil
    rwa [List.nil_append, List.nil_append, List.nil_append, List.append_nil] at hmember
  · rw [lispMembers]
    rfl

theorem Member.cons {out rest key : List UInt8} {d : Val} {ms : List (List UInt8 × Val)}
    (h : Member out key d) (hrest : Derives rest (.members ms)) :
    Derives (out ++ ascii ',' :: rest) (.members ((key, d) :: ms)) := by
  obtain ⟨k, s, rfl, hk, hs⟩ := h
  have hmember := Derives.member space_nil hk space_nil space_nil hs space_nil hrest
  simp only [List.nil_append] at hmember
  rw [List.cons_append, List.append_assoc, List.cons_append, List.cons_append]
  exact hmember

theorem writesPairs_cons {pair rest : Value} (hpair : WritesPair pair)
    (hrest : WritesPairs rest) : WritesPairs (.cons pair rest) := by
  obtain ⟨out, hout, hclean, hderives⟩ := hpair
  obtain ⟨more, hmore, hhead, hclean', hderives'⟩ := hrest
  have hcomma : Separator (ascii ',') := by decide
  refine ⟨ascii ',' :: (out ++ more), ?_, head_separator hcomma, ?_, fun hlegible => ?_⟩
  · rw [encodePairs, hout, ok_bind, hmore, ok_bind]
  · rw [clean_cons_iff hcomma, clean_append_iff hhead, hclean, hclean', Legible]
  · rw [Legible] at hlegible
    obtain ⟨key, d, hmember, hvalue⟩ := hderives hlegible.1
    obtain ⟨ms, hms, hvalues⟩ := hderives' hlegible.2
    refine ⟨(key, d) :: ms, fun out' key' d' hout' => ?_, ?_⟩
    · exact hout'.cons (hms out key d hmember)
    · rw [lispMembers, list_cons_eq_iff, hvalue, hvalues, Exact]

theorem writes_object {pair rest : Value} (hlist : jsonAlistP (.cons pair rest) = .ok true)
    (hpair : WritesPair pair) (hrest : WritesPairs rest) : Writes (.cons pair rest) := by
  obtain ⟨out, hout, hclean, hderives⟩ := hpair
  obtain ⟨more, hmore, hhead, hclean', hderives'⟩ := hrest
  have hopen : Separator (ascii '\x7b') := by decide
  have hclose : Separator (ascii '\x7d') := by decide
  refine ⟨ascii '\x7b' :: (out ++ (more ++ [ascii '\x7d'])), ?_, ?_, fun hlegible => ?_⟩
  · rw [jsonEncode, hlist, ok_bind, if_pos rfl, hout, ok_bind, hmore, ok_bind]
  · rw [clean_cons_iff hopen, ← List.append_assoc, clean_append_cons_iff hclose,
      clean_append_iff hhead, hclean, hclean', and_iff_left clean_nil, Legible]
  · rw [Legible] at hlegible
    obtain ⟨key, d, hmember, hvalue⟩ := hderives hlegible.1
    obtain ⟨ms, hms, hvalues⟩ := hderives' hlegible.2
    refine ⟨.obj ((key, d) :: ms), ?_, ?_⟩
    · rw [← List.append_assoc]
      exact .obj (hms out key d hmember)
    · rw [lispValue, lispMembers, list_cons_eq_iff, hvalue, hvalues, Exact]

/-! ## All values -/

/-- What the parts of the encoder write, where they are used on a value. -/
structure Encodes (v : Value) : Prop where
  value : Encodable v → Writes v
  items : EncodableItems v → WritesItems v
  pair : EncodablePair v → WritesPair v
  pairs : EncodablePairs v → WritesPairs v

/-- **Each part of the encoder** writes what it should, by induction on the value. -/
theorem encodes_all (v : Value) : Encodes v := by
  induction v with
  | nil => exact ⟨fun _ => writes_nil, fun _ => writesItems_nil, nofun, fun _ => writesPairs_nil⟩
  | t => exact ⟨fun _ => writes_t, nofun, nofun, nofun⟩
  | number x => exact ⟨writes_number, nofun, nofun, nofun⟩
  | string s => exact ⟨writes_string, nofun, nofun, nofun⟩
  | cons car cdr ihcar ihcdr =>
      constructor
      · intro h
        rcases jsonAlistP_cases h with ⟨hlist, hpair, hpairs⟩ | ⟨hlist, hitem, hitems⟩
        · exact writes_object hlist (ihcar.pair hpair) (ihcdr.pairs hpairs)
        · exact writes_array hlist (ihcar.value hitem) (ihcdr.items hitems)
      · intro h
        rw [EncodableItems] at h
        exact writesItems_cons (ihcar.value h.1) (ihcdr.items h.2)
      · intro h
        obtain ⟨key, val, hpair⟩ := isPair_iff.mp (isPair_of_encodablePair h)
        obtain ⟨rfl, rfl⟩ := Value.cons.inj hpair
        rw [EncodablePair] at h
        exact writesPair_cons (ihcdr.value h)
      · intro h
        rw [EncodablePairs] at h
        exact writesPairs_cons (ihcar.pair h.1) (ihcdr.pairs h.2)

/-- **The text is well formed and stands for the value** exactly when the strings are clean and
the integers keep their digits. -/
theorem jsonEncode_faithful_iff {v : Value} (h : Encodable v) :
    Faithful v ↔ Legible v ∧ Exact v := by
  obtain ⟨text, htext, hclean, hderives⟩ := (encodes_all v).value h
  have hrfc : ∀ {d}, Clean text → Derives text (.value d) → RfcText text d := fun hc hd =>
    ⟨hc.1, [], text, [], space_nil, hd, space_nil, (List.append_nil _).symm⟩
  constructor
  · rintro ⟨text', d, htext', hd, hv⟩
    obtain rfl := Except.ok.inj (htext.symm.trans htext')
    have hc : Clean text := ⟨hd.utf8, hd.printable⟩
    have hlegible := hclean.mp hc
    obtain ⟨d', hd', hvalue⟩ := hderives hlegible
    obtain rfl := hd.unique (hrfc hc hd')
    exact ⟨hlegible, hvalue.mp hv⟩
  · rintro ⟨hlegible, hexact⟩
    obtain ⟨d, hd, hvalue⟩ := hderives hlegible
    exact ⟨text, d, htext, hrfc (hclean.mpr hlegible) hd, hvalue.mpr hexact⟩

/-- The alist of `"a\n"` and the list of 3 and `()`. -/
def sampleAlist : Value :=
  .cons (.cons (.string (cstring [ascii 'a', ascii '\n'])) (.cons (.number 3) (.cons .nil .nil))) .nil

theorem sampleAlist_faithful : Faithful sampleAlist := by
  have hencodable : Encodable sampleAlist := by
    simp only [sampleAlist, Encodable, EncodablePair, EncodablePairs, EncodableItems, and_true]
    exact .inr (.inl ⟨3, by decide, rfl⟩)
  have hkey : Clean (cstring [ascii 'a', ascii '\n']).bytes := clean_of_all (by decide)
  have hthree : KeepsDigits ⌊(3 : ℚ)⌋ := .inl (by norm_num)
  exact (jsonEncode_faithful_iff hencodable).mpr
    ⟨⟨⟨hkey, trivial, trivial, trivial⟩, trivial⟩, ⟨⟨trivial, hthree, trivial, trivial⟩, trivial⟩⟩

/-- The string of the byte 1. -/
def controlString : Value := .string (cstring [1])

/-- **A control character is copied**: the text is not a JSON text. -/
theorem not_faithful_controlString : Encodable controlString ∧ ¬Faithful controlString := by
  constructor
  · rw [controlString, Encodable]
    exact ⟨by decide, by decide⟩
  · rintro ⟨text, d, htext, hd, -⟩
    have hcopy : jsonEncode controlString = .ok [ascii '"', 1, ascii '"'] := by
      rw [controlString, jsonEncode]
      rfl
    obtain rfl := Except.ok.inj (hcopy.symm.trans htext)
    have hprintable := hd.printable 1 (List.mem_cons_of_mem _ List.mem_cons_self)
    exact absurd hprintable (by decide)

end Lush.Httpd
