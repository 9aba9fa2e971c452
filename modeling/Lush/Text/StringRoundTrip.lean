import Lush.Text.Strings

/-!
# Strings print readably, except some

`rl_string` undoes the escapes of `string_name` one by one (`rlLoop_escape`).
But `read_word` has to find the closing quote first, and it takes escapes to be
two characters long.  The character `0x1c` is printed as `\^\`, whose second
backslash then hides the next character.  When that is the closing quote, the
word goes on after it; when it is the backslash of `\"`, the quote is exposed.
`endsWell` follows the reader along the string, and the string is read back
exactly when it ends well (`readString_stringName`).
-/

namespace Lush.Text

/-! ## The shapes of an escape -/

/-- A character that stands for itself inside a string. -/
def Plain (c : UInt8) : Prop := isPrint c = true ∧ c ≠ 34 ∧ c ≠ 92

instance (c : UInt8) : Decidable (Plain c) := inferInstanceAs (Decidable (_ ∧ _))

/-- The shapes of an escape: the character itself, `\a`, `\^x` and `\xhh`, with
what `rl_string` finds there.  The two dangerous characters inside an escape are
the quote of `\"` and the last backslash of `\^\`. -/
inductive Escape (c : UInt8) : List UInt8 → Prop
  | self : Plain c → c ≠ 28 → Escape c [c]
  | quote : c = 34 → Escape c [92, 34]
  | backslash : c = 92 → Escape c [92, 92]
  | aspect (a : UInt8) : c ≠ 34 ∧ c ≠ 92 ∧ c ≠ 28 → Plain a →
      (strchr aspectString a).map (specialString.getD · 0) = some c → Escape c [92, a]
  | caret : c = 28 → Escape c [92, 94, 92]
  | control (x : UInt8) : c ≠ 34 ∧ c ≠ 92 ∧ c ≠ 28 → Plain x → x &&& 0x1f = c →
      Escape c [92, 94, x]
  | hex (d e : UInt8) : c ≠ 34 ∧ c ≠ 92 ∧ c ≠ 28 → Plain d ∧ hexDigit d = some (c.toNat / 16) →
      Plain e ∧ hexDigit e = some (c.toNat % 16) → Escape c [92, 120, d, e]

theorem escape_shape (c : UInt8) : Escape c (escape c) := by
  have h : ∀ c, escape c = [c] ∧ Plain c ∧ c ≠ 28 ∨ escape c = [92, 34] ∧ c = 34 ∨
      escape c = [92, 92] ∧ c = 92 ∨ escape c = [92, 94, 92] ∧ c = 28 ∨
      (c ≠ 34 ∧ c ≠ 92 ∧ c ≠ 28) ∧
        (escape c = [92, (escape c).getD 1 0] ∧ Plain ((escape c).getD 1 0) ∧
            (strchr aspectString ((escape c).getD 1 0)).map (specialString.getD · 0) = some c ∨
          escape c = [92, 94, (escape c).getD 2 0] ∧ Plain ((escape c).getD 2 0) ∧
            (escape c).getD 2 0 &&& 0x1f = c ∨
          escape c = [92, 120, (escape c).getD 2 0, (escape c).getD 3 0] ∧
            (Plain ((escape c).getD 2 0) ∧ hexDigit ((escape c).getD 2 0) = some (c.toNat / 16)) ∧
            Plain ((escape c).getD 3 0) ∧ hexDigit ((escape c).getD 3 0) = some (c.toNat % 16)) := by
    refine forall_byte ?_
    decide +kernel
  rcases h c with ⟨h, hc, hc'⟩ | ⟨h, hc⟩ | ⟨h, hc⟩ | ⟨h, hc⟩ |
    ⟨hc, ⟨h, ha, ha'⟩ | ⟨h, hx, hx'⟩ | ⟨h, hd, he⟩⟩
  · rw [h]; exact .self hc hc'
  · rw [h]; exact .quote hc
  · rw [h]; exact .backslash hc
  · rw [h]; exact .caret hc
  · rw [h]; exact .aspect _ hc ha ha'
  · rw [h]; exact .control _ hc hx hx'
  · rw [h]; exact .hex _ _ hc hd he

theorem length_escape (c : UInt8) : (escape c).length ≤ 4 := by
  obtain ⟨e, he⟩ : ∃ e, e = escape c := ⟨_, rfl⟩
  have h := escape_shape c
  rw [← he] at h ⊢
  cases h <;> simp

/-! ## The printed text -/

/-- A string that fits is printed whole. -/
theorem nameLoop_eq {s : List UInt8} {off : ℕ}
    (h : off + (s.dropLast.flatMap escape).length < stringBuffer - 10) :
    nameLoop off s = s.flatMap escape := by
  induction s generalizing off with
  | nil => rfl
  | cons c s ih =>
      have hoff : ¬stringBuffer - 10 ≤ off := by omega
      rw [nameLoop, if_neg hoff, List.flatMap_cons]
      cases s with
      | nil => simp [nameLoop]
      | cons d s =>
          rw [ih]
          simpa [List.dropLast, Nat.add_assoc] using h

theorem stringName_eq {s : CString} (h : Fits s.bytes) :
    stringName s = 34 :: (s.bytes.flatMap escape ++ [34]) := by
  have hloop : nameLoop 1 s.bytes = s.bytes.flatMap escape :=
    nameLoop_eq (by rw [Nat.add_comm]; exact h)
  rw [stringName, hloop]
  rfl

theorem length_le_of_fits {s : List UInt8} (h : Fits s) :
    (s.flatMap escape).length < stringBuffer - 6 := by
  have hbuffer : stringBuffer = 4096 := rfl
  unfold Fits at h
  rcases List.eq_nil_or_concat s with rfl | ⟨t, c, rfl⟩
  · simp [hbuffer]
  · have := length_escape c
    simp only [List.concat_eq_append, List.dropLast_concat, List.flatMap_append,
      List.flatMap_cons, List.flatMap_nil, List.append_nil, List.length_append] at h ⊢
    omega

/-! ## Expanding the escapes -/

theorem rlEscape_x (s : List UInt8) : rlEscape (120 :: s) =
    if (hexDigits 2 s).1 = 0 then .error badBackslash
    else .ok ([UInt8.ofNat (hexDigits 2 s).2.1], (hexDigits 2 s).2.2) := rfl

/-- `rl_string` undoes one escape. -/
theorem rlLoop_escape (c : UInt8) (rounds : ℕ) (t : List UInt8) :
    rlLoop (rounds + 1) (escape c ++ t) = (do
      let rest ← rlLoop rounds t
      .ok (c :: rest)) := by
  have hone : ∀ e t', rlEscape (e ++ t) = .ok ([c], t) → e ≠ [] →
      escape c = 92 :: e → t' = t → rlLoop (rounds + 1) (escape c ++ t) = (do
        let rest ← rlLoop rounds t'
        .ok (c :: rest)) := by
    rintro e t' hescape hne heq rfl
    rw [heq, List.cons_append, rlLoop, if_pos ⟨rfl, by simp [hne]⟩, hescape]
    rfl
  obtain ⟨e, he⟩ : ∃ e, e = escape c := ⟨_, rfl⟩
  have h := escape_shape c
  rw [← he] at h
  cases h with
  | self hc hc' =>
      have hne : ¬(c = ascii '\\' ∧ t ≠ []) := fun hand => hc.2.2 hand.1
      rw [← he, List.singleton_append, rlLoop, if_neg hne]
  | quote hc =>
      subst hc
      exact hone [34] t rfl (by simp) he.symm rfl
  | backslash hc =>
      subst hc
      exact hone [92] t rfl (by simp) he.symm rfl
  | caret hc =>
      subst hc
      refine hone [94, 92] t ?_ (by simp) he.symm rfl
      show Except.ok ([92 &&& 0x1f], t) = _
      rw [show (92 : UInt8) &&& 0x1f = 28 by decide]
  | aspect a hc ha ha' =>
      refine hone [a] t ?_ (by simp) he.symm rfl
      obtain ⟨i, hi, hi'⟩ := Option.map_eq_some_iff.mp ha'
      simp only [List.singleton_append, rlEscape, hi, hi']
  | control x hc hx hx' =>
      refine hone [94, x] t ?_ (by simp) he.symm rfl
      simp only [List.cons_append, List.nil_append]
      show Except.ok ([x &&& 0x1f], t) = _
      rw [hx']
  | hex d e hc hd he' =>
      refine hone [120, d, e] t ?_ (by simp) he.symm rfl
      have hvalue : UInt8.ofNat (c.toNat / 16 * 16 ^ 1 + (c.toNat % 16 * 16 ^ 0 + 0)) = c := by
        have : c.toNat / 16 * 16 ^ 1 + (c.toNat % 16 * 16 ^ 0 + 0) = c.toNat := by omega
        rw [this, UInt8.ofNat_toNat]
      have hdigits : hexDigits 2 (d :: e :: t) =
          (2, c.toNat / 16 * 16 ^ 1 + (c.toNat % 16 * 16 ^ 0 + 0), t) := by
        simp only [hexDigits, hd.2, he'.2]
      rw [List.cons_append, List.cons_append, List.cons_append, List.nil_append, rlEscape_x, hdigits,
        hvalue]
      rfl

/-- **`rl_string` undoes `string_name`**, whatever follows. -/
theorem rlLoop_flatMap (s t : List UInt8) {rounds : ℕ}
    (h : (s.flatMap escape ++ t).length ≤ rounds) :
    ∃ rounds', t.length ≤ rounds' ∧ rlLoop rounds (s.flatMap escape ++ t) = (do
      let rest ← rlLoop rounds' t
      .ok (s ++ rest)) := by
  induction s generalizing rounds with
  | nil =>
      refine ⟨rounds, h, ?_⟩
      cases hloop : rlLoop rounds t <;> simp [hloop, Bind.bind, Except.bind]
  | cons c s ih =>
      have hpos : (escape c).length ≠ 0 := by
        obtain ⟨e, he⟩ : ∃ e, e = escape c := ⟨_, rfl⟩
        have hshape := escape_shape c
        rw [← he] at hshape ⊢
        cases hshape <;> simp
      simp only [List.flatMap_cons, List.append_assoc, List.length_append] at h ⊢
      obtain ⟨rounds, rfl⟩ : ∃ k, rounds = k + 1 := ⟨rounds - 1, by omega⟩
      obtain ⟨rounds', hrounds', heq⟩ := ih
        (show (s.flatMap escape ++ t).length ≤ rounds by rw [List.length_append]; omega)
      refine ⟨rounds', hrounds', ?_⟩
      rw [rlLoop_escape, heq]
      cases rlLoop rounds' t <;> rfl

/-! ## Finding the closing quote -/

/-- Where the reader stands: `hidden` says that a backslash hides the next
character. -/
def endsWell : Bool → List UInt8 → Bool
  | hidden, [] => !hidden
  | hidden, c :: s =>
      if c = 28 then endsWell true s
      else if c = 92 then endsWell hidden s
      else if c = 34 ∧ hidden then false
      else endsWell false s

section Steps

variable {rounds off tab : ℕ} {t : List UInt8}

theorem Plain.facts {c : UInt8} (h : Plain c) : c ≠ ascii '\r' ∧
    ¬(c = ascii '\"' ∨ c = eof) ∧ ¬(isAscii c ∧ isCntrl c) ∧ c ≠ ascii '\\' := by
  have hall : ∀ c, Plain c → c ≠ ascii '\r' ∧ ¬(c = ascii '\"' ∨ c = eof) ∧
      ¬(isAscii c ∧ isCntrl c) ∧ c ≠ ascii '\\' := by
    refine forall_byte ?_
    decide +kernel
  exact hall c h

theorem wordString_quote :
    wordString (rounds + 1) off ⟨34 :: t, tab⟩ = .ok ([], ⟨t, tabAfter 34 tab⟩) := by
  rw [wordString, readChar_cons (by decide)]
  exact if_pos (Or.inl rfl)

theorem wordString_plain {c : UInt8} (hc : Plain c) (hoff : off < stringBuffer - 2) :
    wordString (rounds + 1) off ⟨c :: t, tab⟩ = (do
      let (word, input) ← wordString rounds (off + 1) ⟨t, tabAfter c tab⟩
      .ok (c :: word, input)) := by
  obtain ⟨h1, h2, h3, h4⟩ := hc.facts
  rw [wordString, readChar_cons h1]
  simp only [if_neg h2, if_neg h3, if_pos hoff, if_neg h4]

/-- A backslash takes a character along, were it a quote or a backslash. -/
theorem wordString_pair {c : UInt8} (hc : isPrint c = true) (hoff : off < stringBuffer - 2) :
    wordString (rounds + 1) off ⟨92 :: c :: t, tab⟩ = (do
      let (word, input) ← wordString rounds (off + 2) ⟨t, tabAfter c (tabAfter 92 tab)⟩
      .ok (92 :: c :: word, input)) := by
  have hall : ∀ c, isPrint c = true → c ≠ ascii '\r' ∧
      ¬(isCntrl (toAscii c) ∧ c ≠ ascii '\n') := by
    refine forall_byte ?_
    decide +kernel
  obtain ⟨h1, h2⟩ := hall c hc
  rw [wordString, readChar_cons (by decide)]
  simp only [readChar_cons h1, if_neg h2, if_pos hoff]
  rfl

end Steps

/-- What becomes of a printed text, up to its closing quote: when it ends well
the word read is the text and the input goes on with `rest`; otherwise the word
ends before, or passes over the closing quote. -/
def Delimits (result : Except Fault (List UInt8 × Input)) (text rest : List UInt8) :
    Bool → Prop
  | true => ∃ tab, result = .ok (text, ⟨rest, tab⟩)
  | false => ∀ word input, result = .ok (word, input) →
      rest.length < input.chars.length ∨ ∃ more, word = text ++ 34 :: more

/-- Characters read before. -/
theorem Delimits.prepend {result : Except Fault (List UInt8 × Input)} {text rest : List UInt8}
    {good : Bool} (h : Delimits result text rest good) (before : List UInt8) :
    Delimits (result >>= fun r => .ok (before ++ r.1, r.2)) (before ++ text) rest good := by
  cases good with
  | true =>
      obtain ⟨tab, rfl⟩ := h
      exact ⟨tab, rfl⟩
  | false =>
      intro word input heq
      cases hresult : result with
      | error e =>
          rw [hresult] at heq
          cases heq
      | ok r =>
          rw [hresult] at heq
          cases heq
          refine (h r.1 r.2 hresult).imp_right ?_
          rintro ⟨more, hmore⟩
          exact ⟨more, by rw [hmore, List.append_assoc]⟩

/-- The reader delimits the text in this way, wherever it stands in the
buffer. -/
def Follows (rest text : List UInt8) (good : Bool) : Prop :=
  ∀ rounds off tab, off + text.length < stringBuffer - 2 → text.length < rounds →
    Delimits (wordString rounds off ⟨text ++ 34 :: rest, tab⟩) text rest good

theorem Follows.plain {rest text : List UInt8} {good : Bool} (h : Follows rest text good)
    {c : UInt8} (hc : Plain c) : Follows rest (c :: text) good := by
  intro rounds off tab hoff hrounds
  simp only [List.length_cons] at hoff hrounds
  obtain ⟨rounds, rfl⟩ : ∃ k, rounds = k + 1 := ⟨rounds - 1, by omega⟩
  rw [List.cons_append, wordString_plain hc (by omega)]
  exact (h rounds (off + 1) _ (by omega) (by omega)).prepend [c]

theorem Follows.pair {rest text : List UInt8} {good : Bool} (h : Follows rest text good)
    {c : UInt8} (hc : isPrint c = true) : Follows rest (92 :: c :: text) good := by
  intro rounds off tab hoff hrounds
  simp only [List.length_cons] at hoff hrounds
  obtain ⟨rounds, rfl⟩ : ∃ k, rounds = k + 1 := ⟨rounds - 1, by omega⟩
  rw [List.cons_append, List.cons_append, wordString_pair hc (by omega)]
  exact (h rounds (off + 2) _ (by omega) (by omega)).prepend [92, c]

/-- The end of the text, with the closing quote in sight. -/
theorem follows_nil (rest : List UInt8) : Follows rest [] true := by
  intro rounds off tab _ hrounds
  obtain ⟨rounds, rfl⟩ : ∃ k, rounds = k + 1 := ⟨rounds - 1, by simp at hrounds; omega⟩
  exact ⟨_, wordString_quote⟩

/-- The end of the text, with the closing quote hidden: the word goes on. -/
theorem follows_hidden (rest : List UInt8) : Follows rest [92] false := by
  intro rounds off tab hoff hrounds word input heq
  obtain ⟨rounds, rfl⟩ : ∃ k, rounds = k + 1 := ⟨rounds - 1, by simp at hrounds; omega⟩
  simp only [List.singleton_append, List.length_singleton] at heq hoff
  rw [wordString_pair (by decide) (by omega)] at heq
  cases hrest : wordString rounds (off + 2) ⟨rest, tabAfter 34 (tabAfter 92 tab)⟩ with
  | error e =>
      rw [hrest] at heq
      cases heq
  | ok r =>
      rw [hrest] at heq
      cases heq
      exact Or.inr ⟨r.1, rfl⟩

/-- A quote in the text that nothing hides: the word ends before its end. -/
theorem follows_exposed (rest text : List UInt8) : Follows rest (92 :: 92 :: 34 :: text) false := by
  intro rounds off tab hoff hrounds word input heq
  simp only [List.length_cons] at hoff hrounds
  obtain ⟨rounds, rfl⟩ : ∃ k, rounds = k + 1 + 1 := ⟨rounds - 2, by omega⟩
  rw [List.cons_append, List.cons_append, List.cons_append,
    wordString_pair (by decide) (by omega), wordString_quote] at heq
  cases heq
  refine Or.inl ?_
  simp only [List.length_append, List.length_cons]
  omega

/-- The backslash that hides a character, if there is one. -/
def slash : Bool → List UInt8
  | true => [92]
  | false => []

/-- **The reader follows the printed text**, with or without a hidden
character. -/
theorem follows_flatMap (rest s : List UInt8) : ∀ hidden : Bool,
    Follows rest (slash hidden ++ s.flatMap escape) (endsWell hidden s) := by
  induction s with
  | nil =>
      intro hidden
      cases hidden with
      | false => exact follows_nil rest
      | true => exact follows_hidden rest
  | cons c s ih =>
      intro hidden
      obtain ⟨e, he⟩ : ∃ e, e = escape c := ⟨_, rfl⟩
      have hshape := escape_shape c
      rw [← he] at hshape
      have hplain : Follows rest (s.flatMap escape) (endsWell false s) := ih false
      have hslash : Follows rest (92 :: s.flatMap escape) (endsWell true s) := ih true
      have h94 : Plain 94 := by decide
      have h120 : Plain 120 := by decide
      have hprint : isPrint 92 = true := by decide
      rw [List.flatMap_cons, ← he]
      -- all but three characters leave the reader in step, with nothing hidden
      have hgood : c ≠ 34 → c ≠ 92 → c ≠ 28 → endsWell hidden (c :: s) = endsWell false s := by
        intro h1 h2 h3
        simp [endsWell, h1, h2, h3]
      cases hidden with
      | false =>
          cases hshape with
          | self hc hc' =>
              rw [hgood hc.2.1 hc.2.2 hc']
              exact hplain.plain hc
          | quote hc =>
              subst hc
              exact hplain.pair (by decide)
          | backslash hc =>
              subst hc
              exact hplain.pair hprint
          | aspect a hc ha _ =>
              rw [hgood hc.1 hc.2.1 hc.2.2]
              exact hplain.pair ha.1
          | caret hc =>
              subst hc
              exact hslash.pair h94.1
          | control x hc hx _ =>
              rw [hgood hc.1 hc.2.1 hc.2.2]
              exact (hplain.plain hx).pair h94.1
          | hex d e hc hd he' =>
              rw [hgood hc.1 hc.2.1 hc.2.2]
              exact ((hplain.plain he'.1).plain hd.1).pair h120.1
      | true =>
          cases hshape with
          | self hc hc' =>
              rw [hgood hc.2.1 hc.2.2 hc']
              exact hplain.pair hc.1
          | quote hc =>
              subst hc
              exact follows_exposed rest _
          | backslash hc =>
              subst hc
              exact hslash.pair hprint
          | aspect a hc ha _ =>
              rw [hgood hc.1 hc.2.1 hc.2.2]
              exact (hplain.plain ha).pair hprint
          | caret hc =>
              subst hc
              exact (hslash.plain h94).pair hprint
          | control x hc hx _ =>
              rw [hgood hc.1 hc.2.1 hc.2.2]
              exact ((hplain.plain hx).plain h94).pair hprint
          | hex d e hc hd he' =>
              rw [hgood hc.1 hc.2.1 hc.2.2]
              exact (((hplain.plain he'.1).plain hd.1).plain h120).pair hprint

/-! ## The round trip -/

/-- The characters `0x1c` that cannot be read back: after the last of a run of
`0x1c` and backslashes comes a double quote, or the end of the string. -/
def Swallows (s : List UInt8) : Prop :=
  ∃ before run after, s = before ++ 28 :: (run ++ after) ∧ (∀ c ∈ run, c = 28 ∨ c = 92) ∧
    (after = [] ∨ after.head? = some 34)

/-- What follows a hiding backslash goes wrong. -/
def Caught (s : List UInt8) : Prop :=
  ∃ run after, s = run ++ after ∧ (∀ c ∈ run, c = 28 ∨ c = 92) ∧
    (after = [] ∨ after.head? = some 34)

theorem caught_cons {c : UInt8} {s : List UInt8} :
    Caught (c :: s) ↔ c = 34 ∨ (c = 28 ∨ c = 92) ∧ Caught s := by
  refine ⟨?_, ?_⟩
  · rintro ⟨run, after, heq, hrun, hafter⟩
    cases run with
    | nil =>
        rw [List.nil_append] at heq
        subst heq
        exact Or.inl (by simpa using hafter)
    | cons d run =>
        rw [List.cons_append, List.cons.injEq] at heq
        obtain ⟨rfl, rfl⟩ := heq
        exact Or.inr ⟨hrun c (by simp), run, after, rfl, fun d hd => hrun d (by simp [hd]), hafter⟩
  · rintro (rfl | ⟨hc, run, after, rfl, hrun, hafter⟩)
    · exact ⟨[], 34 :: s, rfl, by simp, Or.inr rfl⟩
    · refine ⟨c :: run, after, rfl, fun d hd => ?_, hafter⟩
      rcases List.mem_cons.mp hd with rfl | hd
      exacts [hc, hrun d hd]

theorem swallows_cons {c : UInt8} {s : List UInt8} :
    Swallows (c :: s) ↔ c = 28 ∧ Caught s ∨ Swallows s := by
  refine ⟨?_, ?_⟩
  · rintro ⟨before, run, after, heq, hrun, hafter⟩
    cases before with
    | nil =>
        rw [List.nil_append, List.cons.injEq] at heq
        exact Or.inl ⟨heq.1, run, after, heq.2, hrun, hafter⟩
    | cons d before =>
        rw [List.cons_append, List.cons.injEq] at heq
        exact Or.inr ⟨before, run, after, heq.2, hrun, hafter⟩
  · rintro (⟨rfl, run, after, rfl, hrun, hafter⟩ | ⟨before, run, after, rfl, hrun, hafter⟩)
    · exact ⟨[], run, after, rfl, hrun, hafter⟩
    · exact ⟨c :: before, run, after, rfl, hrun, hafter⟩

/-- The reader comes to grief exactly there. -/
theorem endsWell_eq_false_iff (s : List UInt8) : ∀ hidden : Bool,
    endsWell hidden s = false ↔ (hidden = true ∧ Caught s) ∨ Swallows s := by
  induction s with
  | nil =>
      intro hidden
      have hcaught : Caught [] := ⟨[], [], rfl, by simp, Or.inl rfl⟩
      have hswallows : ¬Swallows [] := by
        rintro ⟨before, run, after, heq, -⟩
        simp at heq
      simp [endsWell, hcaught, hswallows]
  | cons c s ih =>
      intro hidden
      rw [caught_cons, swallows_cons, endsWell]
      by_cases h28 : c = 28
      · rw [if_pos h28, ih]
        simp [h28]
        tauto
      by_cases h92 : c = 92
      · rw [if_neg h28, if_pos h92, ih]
        simp [h92]
      by_cases h34 : c = 34
      · cases hidden with
        | true => simp [h34]
        | false => simp [h34, ih]
      · have : ¬(c = 34 ∧ hidden = true) := fun h => h34 h.1
        rw [if_neg h28, if_neg h92, if_neg this, ih]
        simp [h28, h92, h34]

/-- A word that starts with a quote. -/
theorem readWord_quote (charMap : UInt8 → CharClass) (caseSensitive : Bool) (t : List UInt8)
    (tab : ℕ) : readWord charMap caseSensitive ⟨34 :: t, tab⟩ = (do
      let (word, input) ← wordString stringBuffer 1 ⟨t, tabAfter 34 tab⟩
      .ok (34 :: word, input)) := by
  have hskip : skipToExpr ⟨34 :: t, tab⟩ = ⟨34 :: t, tab⟩ := by
    rw [skipToExpr, skipLoop, nextChar_cons (by decide)]
    simp only [if_neg (show ¬(34 : UInt8) = ascii ';' by decide),
      if_neg (show ¬(isAscii 34 ∧ isSpace 34) by decide)]
  rw [readWord, hskip]
  simp only [nextChar_cons (show (34 : UInt8) ≠ ascii '\r' by decide),
    readChar_cons (show (34 : UInt8) ≠ ascii '\r' by decide),
    if_neg (show ¬(34 : UInt8) = ascii '|' by decide),
    if_pos (show (34 : UInt8) = ascii '\"' by decide)]

/-- The string in a text, and what comes after a quote that was passed over. -/
theorem rlString_flatMap (s : CString) (t : List UInt8) :
    rlString (s.bytes.flatMap escape) = .ok s ∧
      ∀ s', rlString (s.bytes.flatMap escape ++ 34 :: t) = .ok s' → s' ≠ s := by
  refine ⟨?_, fun s' hs' => ?_⟩
  · obtain ⟨rounds, -, heq⟩ := rlLoop_flatMap s.bytes []
      (show (s.bytes.flatMap escape ++ []).length ≤ (s.bytes.flatMap escape).length by simp)
    have hloop : rlLoop rounds [] = .ok [] := by cases rounds <;> rfl
    rw [List.append_nil, hloop] at heq
    rw [rlString, heq]
    exact congrArg Except.ok (by rw [List.append_nil, cstring_bytes])
  · obtain ⟨rounds, hrounds, heq⟩ := rlLoop_flatMap s.bytes (34 :: t) le_rfl
    obtain ⟨rounds, rfl⟩ : ∃ k, rounds = k + 1 := ⟨rounds - 1, by simp at hrounds; omega⟩
    have hquote : rlLoop (rounds + 1) (34 :: t) = (do
        let rest ← rlLoop rounds t
        .ok (34 :: rest)) := if_neg fun h => absurd h.1 (by decide)
    rw [rlString, heq, hquote] at hs'
    cases hrest : rlLoop rounds t with
    | error e =>
        rw [hrest] at hs'
        cases hs'
    | ok u =>
        rw [hrest] at hs'
        rintro rfl
        have hbytes : (s'.bytes ++ 34 :: u).takeWhile (· ≠ 0) = s'.bytes :=
          congrArg CString.bytes (Except.ok.inj hs')
        have hall : ∀ b ∈ s'.bytes, decide (b ≠ 0) = true := by
          intro b hb
          have : b ≠ 0 := fun h0 => s'.nonzero (h0 ▸ hb)
          simpa using this
        rw [List.takeWhile_append_of_pos hall] at hbytes
        have hlength := congrArg List.length hbytes
        simp at hlength

/-- **Strings are read back exactly when no `0x1c` swallows what follows.**
Whatever comes next on the input, reading the text that `string_name` prints
gives the string back and stops after the text, if and only if no character
`0x1c` is followed, after some characters `0x1c` and backslashes or none, by a
double quote or by the end of the string. -/
theorem readString_stringName (charMap : UInt8 → CharClass) (caseSensitive : Bool) (s : CString)
    (hfits : Fits s.bytes) (rest : List UInt8) (tab : ℕ) :
    (∃ tab', readString charMap caseSensitive ⟨stringName s ++ rest, tab⟩ =
      .ok (s, ⟨rest, tab'⟩)) ↔ ¬Swallows s.bytes := by
  set text := s.bytes.flatMap escape with htext
  have hbuffer : stringBuffer = 4096 := rfl
  have hlength : text.length < stringBuffer - 6 := length_le_of_fits hfits
  have hdelimits : Delimits (wordString stringBuffer 1 ⟨text ++ 34 :: rest, tabAfter 34 tab⟩)
      text rest (endsWell false s.bytes) :=
    follows_flatMap rest s.bytes false _ 1 _ (show 1 + text.length < _ by omega)
      (show text.length < _ by omega)
  have hends : endsWell false s.bytes = true ↔ ¬Swallows s.bytes := by
    have := endsWell_eq_false_iff s.bytes false
    rw [← Bool.not_eq_false, this]
    simp
  have hinput : stringName s ++ rest = 34 :: (text ++ 34 :: rest) := by
    rw [stringName_eq hfits]
    simp [htext]
  rw [hinput, readString, readWord_quote, ← hends]
  refine ⟨fun h => ?_, fun h => ?_⟩
  · obtain ⟨tab', h⟩ := h
    by_contra hbad
    rw [Bool.eq_false_iff.mpr hbad] at hdelimits
    cases hword : wordString stringBuffer 1 ⟨text ++ 34 :: rest, tabAfter 34 tab⟩ with
    | error e =>
        rw [hword] at h
        cases h
    | ok r =>
        obtain ⟨word, input⟩ := r
        rw [hword] at h
        change (rlString word >>= fun s' => Except.ok (s', input)) = _ at h
        cases hs : rlString word with
        | error e =>
            rw [hs] at h
            cases h
        | ok s' =>
            rw [hs] at h
            cases h
            rcases hdelimits word _ hword with hlt | ⟨more, hmore⟩
            · exact absurd hlt (lt_irrefl _)
            · rw [hmore] at hs
              exact (rlString_flatMap s more).2 s hs rfl
  · rw [h] at hdelimits
    obtain ⟨tab', hword⟩ := hdelimits
    refine ⟨tab', ?_⟩
    rw [hword]
    change (rlString text >>= fun s' => Except.ok (s', (⟨rest, tab'⟩ : Input))) = _
    rw [(rlString_flatMap s []).1]
    rfl

/-- The bytes `a`, `"`, `\`, newline, `0x1b`, `0xe9`, `0xff`, with a bell after. -/
theorem readString_stringName_mixed : ∃ tab',
    readString initCharMap true
        ⟨stringName ⟨[97, 34, 92, 10, 27, 233, 255], by decide⟩ ++ [7], 0⟩ =
      .ok (⟨[97, 34, 92, 10, 27, 233, 255], by decide⟩, ⟨[7], tab'⟩) := by
  refine (readString_stringName initCharMap true _ (by decide) [7] 0).mpr ?_
  exact (endsWell_eq_false_iff _ false).not.mp (by decide) ∘ Or.inr

/-- The string that holds `0x1c` alone swallows its closing quote. -/
theorem readString_stringName_swallows : ¬∃ tab',
    readString initCharMap true ⟨stringName ⟨[28], by decide⟩ ++ [32], 0⟩ =
      .ok (⟨[28], by decide⟩, ⟨[32], tab'⟩) := by
  rintro ⟨tab', h⟩
  have herror : readString initCharMap true ⟨stringName ⟨[28], by decide⟩ ++ [32], 0⟩ =
      .error (illegalCharacter 10) := by
    decide +kernel
  rw [herror] at h
  cases h

end Lush.Text
