import Lush.Text.ReadList

/-!
# Lists print readably

A word that `read_word` takes from a printed text is what `convert` put there: a name
between bars, or a plain name that the reader leaves as it is.  `rl_read` then builds
the tree again (`readList_printList`).

Not every symbol is read back.  The name `.` is printed without bars, a bar in a name
ends it, and `pname` breaks off names that are too long for its buffer
(`readList_long`).
-/

namespace Lush.Text

variable {caseSensitive : Bool} {tab : ℕ}

/-! ## Words -/

/-- What may follow a plain word: the end of the input, or a character that ends the
word. -/
def Ends (rest : List UInt8) : Prop :=
  ∀ c, rest.head? = some c → (initCharMap c).interword = true ∨ isSpace c = true ∨ c = eof

theorem Ends.next {rest : List UInt8} (h : Ends rest) :
    (initCharMap (nextChar ⟨rest, tab⟩)).interword = true ∨
      (isAscii (nextChar ⟨rest, tab⟩) = true ∧ isSpace (nextChar ⟨rest, tab⟩) = true) ∨
      nextChar ⟨rest, tab⟩ = eof := by
  have hnewline : isAscii (ascii '\n') = true ∧ isSpace (ascii '\n') = true := by decide
  have hascii : ∀ c, isSpace c = true → isAscii c = true := by
    refine forall_byte ?_
    decide +kernel
  cases rest with
  | nil =>
      by_cases htab : tab = 0
      · exact Or.inr (Or.inr (if_pos htab))
      · rw [show nextChar ⟨[], tab⟩ = ascii '\n' from if_neg htab]
        exact Or.inr (Or.inl hnewline)
  | cons c rest =>
      by_cases hcr : c = ascii '\r'
      · rw [show nextChar ⟨c :: rest, tab⟩ = ascii '\n' from if_pos hcr]
        exact Or.inr (Or.inl hnewline)
      · rw [nextChar_cons hcr]
        exact (h c rfl).imp_right (Or.imp_left fun hspace => ⟨hascii c hspace, hspace⟩)

/-- A character that `convert` prints without bars. -/
def Unbarred (c : UInt8) : Prop :=
  isAscii c = true ∧ isSpace c = false ∧ isCntrl c = false ∧ isUpper c = false ∧
    (initCharMap c).interword = false

instance (c : UInt8) : Decidable (Unbarred c) := inferInstanceAs (Decidable (_ ∧ _))

theorem Unbarred.facts {c : UInt8} (h : Unbarred c) :
    c ≠ ascii '\r' ∧ c ≠ ascii ';' ∧ c ≠ ascii '|' ∧ c ≠ ascii '\"' ∧ c ≠ eof ∧ toLower c = c ∧
      ¬(isAscii c ∧ isSpace c) ∧ initCharMap c = {} := by
  have hall : ∀ c, Unbarred c →
      c ≠ ascii '\r' ∧ c ≠ ascii ';' ∧ c ≠ ascii '|' ∧ c ≠ ascii '\"' ∧ c ≠ eof ∧ toLower c = c ∧
      ¬(isAscii c ∧ isSpace c) ∧ initCharMap c = {} := by
    refine forall_byte ?_
    decide +kernel
  exact hall c h

/-- A space before a word is skipped. -/
theorem readWord_space (s : List UInt8) :
    readWord initCharMap caseSensitive ⟨ascii ' ' :: s, tab⟩ =
      readWord initCharMap caseSensitive ⟨s, tab + 1⟩ := by
  have hskip : skipToExpr ⟨ascii ' ' :: s, tab⟩ = skipToExpr ⟨s, tab + 1⟩ := by
    unfold skipToExpr
    rw [List.length_cons]
    conv_lhs => rw [skipLoop]
    rw [nextChar_cons (by decide), readChar_cons (by decide)]
    simp only [if_neg (show ¬ascii ' ' = ascii ';' by decide),
      if_pos (show isAscii (ascii ' ') ∧ isSpace (ascii ' ') by decide)]
    rfl
  unfold readWord
  rw [hskip]

/-- Where a word begins. -/
theorem skipToExpr_self {c : UInt8} (s : List UInt8) (hcr : c ≠ ascii '\r')
    (hcomment : c ≠ ascii ';') (hspace : ¬(isAscii c ∧ isSpace c)) :
    skipToExpr ⟨c :: s, tab⟩ = ⟨c :: s, tab⟩ := by
  rw [skipToExpr, skipLoop, nextChar_cons hcr]
  simp only [if_neg hcomment, if_neg hspace]

theorem readWord_paren {c : UInt8} (hc : c = ascii '(' ∨ c = ascii ')') (s : List UInt8) :
    readWord initCharMap caseSensitive ⟨c :: s, tab⟩ = .ok ([c], ⟨s, tabAfter c tab⟩) := by
  have hcr : c ≠ ascii '\r' := by rcases hc with rfl | rfl <;> decide
  unfold readWord
  rw [skipToExpr_self s hcr (by rcases hc with rfl | rfl <;> decide)
    (by rcases hc with rfl | rfl <;> decide)]
  simp only [nextChar_cons hcr, readChar_cons hcr]
  rcases hc with rfl | rfl <;> rfl

/-- The loop on a plain name takes it as it is, up to what ends it. -/
theorem wordPlain_ok (caseSensitive : Bool) {rest : List UInt8} (hrest : Ends rest)
    {name : List UInt8} (rounds off tab : ℕ) (hname : ∀ c ∈ name, Unbarred c) (hfirst : 0 < off → ascii '_' ∉ name)
    (htail : ascii '_' ∉ name.tail) (hoff : off + name.length ≤ stringBuffer - 2)
    (hrounds : name.length < rounds) :
    ∃ tab', wordPlain initCharMap caseSensitive rounds off ⟨name ++ rest, tab⟩ =
      .ok (name, ⟨rest, tab'⟩) := by
  induction name generalizing rounds off tab with
  | nil =>
      obtain ⟨rounds, rfl⟩ := Nat.exists_eq_add_of_lt hrounds
      refine ⟨tab, ?_⟩
      rw [List.nil_append, List.length_nil, Nat.zero_add, wordPlain]
      exact if_pos hrest.next
  | cons c name ih =>
      obtain ⟨rounds, rfl⟩ : ∃ k, rounds = k + 1 := ⟨rounds - 1, by omega⟩
      rw [List.length_cons] at hoff hrounds
      have hc : Unbarred c := hname c (by simp)
      obtain ⟨hcr, -, -, -, heof, hlower, hspace, hmap⟩ := hc.facts
      have hlegal : ¬(¬isAscii c = true ∨ isCntrl c = true) := by simp [hc.1, hc.2.2.1]
      have hunderscore : ¬(0 < off ∧ c = ascii '_') := by
        rintro ⟨hpos, rfl⟩
        exact hfirst hpos (by simp)
      obtain ⟨tab', heq⟩ := ih rounds (off + 1) (tabAfter c tab)
        (fun d hd => hname d (by simp [hd])) (fun _ => htail)
        (fun hmem => htail (List.mem_of_mem_tail hmem)) (by omega) (by omega)
      refine ⟨tab', ?_⟩
      rw [List.cons_append, wordPlain, nextChar_cons hcr, readChar_cons hcr]
      simp only [hmap, CharClass.interword, hspace, heof, hlegal, hunderscore, hlower, heq,
        if_pos (show off < stringBuffer - 2 by omega), if_false, ite_self, or_self]
      rfl

/-- **A plain name is a word.** -/
theorem readWord_plain (caseSensitive : Bool) (tab : ℕ) {rest : List UInt8} (hrest : Ends rest)
    {name : List UInt8} (hne : name ≠ []) (hname : ∀ c ∈ name, Unbarred c) (htail : ascii '_' ∉ name.tail)
    (hlength : name.length ≤ stringBuffer - 2) :
    ∃ tab', readWord initCharMap caseSensitive ⟨name ++ rest, tab⟩ = .ok (name, ⟨rest, tab'⟩) := by
  obtain ⟨c, s, rfl⟩ := List.exists_cons_of_ne_nil hne
  obtain ⟨hcr, hcomment, hbar, hquote, -, -, hspace, hmap⟩ := (hname c (by simp)).facts
  have hbuffer : stringBuffer = 4096 := rfl
  obtain ⟨tab', heq⟩ := wordPlain_ok caseSensitive hrest stringBuffer 0 tab hname (by simp) htail
    (by omega) (by omega)
  refine ⟨tab', ?_⟩
  rw [List.cons_append] at heq ⊢
  unfold readWord
  rw [skipToExpr_self _ hcr hcomment hspace]
  simp only [nextChar_cons hcr, if_neg hbar, if_neg hquote, hmap, heq]
  rfl

/-- The loop between bars takes what is there. -/
theorem wordSymbol_ok (rest : List UInt8) {name : List UInt8} (rounds off tab : ℕ)
    (hname : ∀ c ∈ name, isPrint c = true ∧ c ≠ ascii '|')
    (hoff : off + name.length ≤ stringBuffer - 1) (hrounds : name.length < rounds) :
    ∃ tab', wordSymbol rounds off ⟨name ++ ascii '|' :: rest, tab⟩ = .ok (name, ⟨rest, tab'⟩) := by
  have hfacts : ∀ c, isPrint c = true → c ≠ ascii '\r' ∧ c ≠ eof ∧ ¬(isAscii c ∧ isCntrl c) := by
    refine forall_byte ?_
    decide +kernel
  induction name generalizing rounds off tab with
  | nil =>
      obtain ⟨rounds, rfl⟩ := Nat.exists_eq_add_of_lt hrounds
      refine ⟨tabAfter (ascii '|') tab, ?_⟩
      rw [List.nil_append, List.length_nil, Nat.zero_add, wordSymbol, readChar_cons (by decide)]
      exact if_pos (Or.inl rfl)
  | cons c name ih =>
      obtain ⟨rounds, rfl⟩ : ∃ k, rounds = k + 1 := ⟨rounds - 1, by omega⟩
      rw [List.length_cons] at hoff hrounds
      obtain ⟨hprint, hbar⟩ := hname c (by simp)
      obtain ⟨hcr, heof, hcntrl⟩ := hfacts c hprint
      obtain ⟨tab', heq⟩ := ih rounds (off + 1) (tabAfter c tab)
        (fun d hd => hname d (by simp [hd])) (by omega) (by omega)
      refine ⟨tab', ?_⟩
      rw [List.cons_append, wordSymbol, readChar_cons hcr]
      simp only [if_neg (show ¬(c = ascii '|' ∨ c = eof) by simp [hbar, heof]), if_neg hcntrl,
        if_pos (show off < stringBuffer - 1 by omega), heq]
      rfl

/-- **A name between bars is a word.** -/
theorem readWord_bars (caseSensitive : Bool) (tab : ℕ) {name : List UInt8} (rest : List UInt8)
    (hname : ∀ c ∈ name, isPrint c = true ∧ c ≠ ascii '|')
    (hlength : name.length + 1 ≤ stringBuffer - 1) :
    ∃ tab', readWord initCharMap caseSensitive ⟨ascii '|' :: (name ++ ascii '|' :: rest), tab⟩ =
      .ok (ascii '|' :: name, ⟨rest, tab'⟩) := by
  have hbuffer : stringBuffer = 4096 := rfl
  obtain ⟨tab', heq⟩ := wordSymbol_ok rest stringBuffer 1 (tabAfter (ascii '|') tab) hname
    (by omega) (by omega)
  refine ⟨tab', ?_⟩
  unfold readWord
  rw [skipToExpr_self _ (by decide) (by decide) (by decide)]
  simp only [nextChar_cons (show ascii '|' ≠ ascii '\r' by decide),
    readChar_cons (show ascii '|' ≠ ascii '\r' by decide), if_true, heq]
  rfl

/-! ## Atoms -/

/-- What `rl_read` needs to know of the first word of an atom. -/
theorem needsBars_eq_false_iff {name : List UInt8} : needsBars initCharMap name = false ↔
    (∀ c ∈ name, Unbarred c) ∧ ascii '_' ∉ name.tail ∧ strVal name = none ∧ name ≠ [] := by
  have hany : name.any (fun c => !isAscii c || isSpace c || isCntrl c || isUpper c ||
      (initCharMap c).interword) = false ↔ ∀ c ∈ name, Unbarred c := by
    rw [List.any_eq_false]
    refine forall₂_congr fun c _ => ?_
    simp [Unbarred, and_assoc]
  rw [needsBars, Bool.or_eq_false_iff, Bool.or_eq_false_iff, Bool.or_eq_false_iff, hany]
  simp [and_assoc]

/-- A bar does not begin a number. -/
theorem strVal_bar (s : List UInt8) : strVal (ascii '|' :: s) = none := by
  have hspace : isSpace (ascii '|') = false := by decide
  have hdigit : isDigit (ascii '|') = false := by decide
  have hchars : ascii '|' ≠ ascii '+' ∧ ascii '|' ≠ ascii '-' ∧ ascii '|' ≠ ascii '.' ∧
      ascii '|' ≠ ascii '0' := by decide
  have hhex : strValHex (ascii '|' :: s) = none := by
    unfold strValHex
    match s with
    | [] => simp [hspace, hchars]
    | [d] => simp [hspace, hchars]
    | d :: e :: s => simp [hspace, hchars]
  rw [strVal, hhex, Option.none_or]
  simp [strValFloat, hspace, hdigit, hchars]

/-- A word that is not for `rl_read` itself to look at. -/
def Ordinary (word : List UInt8) : Prop :=
  word ≠ [] ∧ word ≠ [ascii ')'] ∧ word ≠ [ascii '.'] ∧ word.head? ≠ some (ascii '#')

/-- A text is read as a tree, from its first word on, up to where it ends. -/
def ReadsBack (caseSensitive : Bool) (text : List UInt8) (t : Tree) : Prop :=
  ∀ rest, Ends rest → ∀ tab rounds, text.length < rounds → ∃ word input tab',
    readWord initCharMap caseSensitive ⟨text ++ rest, tab⟩ = .ok (word, input) ∧ Ordinary word ∧
      rlRead initCharMap caseSensitive rounds word input = .ok (t, ⟨rest, tab'⟩)

theorem rlRead_atom {word : List UInt8} {t : Tree} {rounds : ℕ} (hdot : word ≠ [ascii '.'])
    (hparen : word ≠ [ascii '(']) (hatom : rlAtom initCharMap word = .ok t) (hrounds : 0 < rounds)
    (input : Input) : rlRead initCharMap caseSensitive rounds word input = .ok (t, input) := by
  obtain ⟨rounds, rfl⟩ : ∃ k, rounds = k + 1 := ⟨rounds - 1, by omega⟩
  rw [rlRead, if_neg hdot, if_neg hparen, hatom]
  rfl

theorem Unbarred.ne {c : UInt8} (h : Unbarred c) :
    c ≠ ascii '(' ∧ c ≠ ascii ')' ∧ c ≠ ascii '^' ∧ c ≠ ascii '#' := by
  have hall : ∀ c, Unbarred c → c ≠ ascii '(' ∧ c ≠ ascii ')' ∧ c ≠ ascii '^' ∧ c ≠ ascii '#' := by
    refine forall_byte ?_
    decide +kernel
  exact hall c h

/-- A plain word is a number, or a symbol. -/
theorem rlAtom_plain {c : UInt8} {s : List UInt8} (hc : Unbarred c) :
    (∀ x, strVal (c :: s) = some x → rlAtom initCharMap (c :: s) = .ok (.number x)) ∧
      (strVal (c :: s) = none → rlAtom initCharMap (c :: s) = newSymbol (c :: s)) := by
  obtain ⟨-, -, hbar, hquote, -, -, -, hmap⟩ := hc.facts
  obtain ⟨-, -, hcaret, hdieze⟩ := hc.ne
  constructor
  · intro x hx
    simp [rlAtom, hmap, hcaret, hdieze, hquote, hx]
  · intro hnone
    simp [rlAtom, hmap, hcaret, hdieze, hquote, hbar, hnone]

/-- A plain word that is not a dot is read as an atom. -/
theorem readsBack_plain {name : List UInt8} {t : Tree} (hne : name ≠ [])
    (hname : ∀ c ∈ name, Unbarred c) (htail : ascii '_' ∉ name.tail)
    (hlength : name.length ≤ stringBuffer - 2) (hdot : name ≠ [ascii '.'])
    (hatom : rlAtom initCharMap name = .ok t) : ReadsBack caseSensitive name t := by
  intro rest hrest tab rounds hrounds
  obtain ⟨tab', hword⟩ := readWord_plain caseSensitive tab hrest hne hname htail hlength
  obtain ⟨c, s, rfl⟩ := List.exists_cons_of_ne_nil hne
  have hc : Unbarred c := hname c (by simp)
  obtain ⟨hopen, hclose, -, hdieze⟩ := hc.ne
  refine ⟨c :: s, _, tab', hword, ⟨hne, ?_, hdot, by simpa using hdieze⟩, ?_⟩
  · simp [hclose]
  · exact rlRead_atom hdot (by simp [hopen]) hatom (by omega) _

theorem bar_ne : ascii '|' ≠ ascii '(' ∧ ascii '|' ≠ ascii ')' ∧ ascii '|' ≠ ascii '.' ∧
    ascii '|' ≠ ascii '#' ∧ ascii '|' ≠ ascii '^' ∧ ascii '|' ≠ ascii '\"' ∧
    initCharMap (ascii '|') = { special := true } := by
  decide

/-- A name between bars is read as this symbol. -/
theorem readsBack_bars {name : List UInt8} (hname : ∀ c ∈ name, isPrint c = true ∧ c ≠ ascii '|')
    (hlength : name.length + 1 ≤ stringBuffer - 1) (hfree : reservedName name = false) :
    ReadsBack caseSensitive (ascii '|' :: (name ++ [ascii '|'])) (.symbol name) := by
  intro rest _ tab rounds hrounds
  obtain ⟨hopen, hclose, hdot, hdieze, hcaret, hquote, hmap⟩ := bar_ne
  obtain ⟨tab', hword⟩ := readWord_bars caseSensitive tab rest hname hlength
  refine ⟨ascii '|' :: name, ⟨rest, tab'⟩, tab', ?_, ⟨by simp, by simp [hclose],
    by simp [hdot], by simpa using hdieze⟩, ?_⟩
  · rw [← hword]
    simp
  · refine rlRead_atom (by simp [hdot]) (by simp [hopen]) ?_ (by omega) _
    simp [rlAtom, hmap, hcaret, hdieze, hquote, strVal_bar, newSymbol, hfree]

theorem length_integerText {n : ℤ} (hn : n.natAbs < 10 ^ 9) : (integerText n).length ≤ 10 := by
  have := length_decimal (n := n.natAbs) (k := 8) hn
  rw [integerText, List.length_append]
  split_ifs <;> simp <;> omega

theorem integerText_ne_nil (n : ℤ) : integerText n ≠ [] := by
  simp [integerText, (decimal_digits n.natAbs).1]

theorem integerText_chars {n : ℤ} : ∀ c ∈ integerText n,
    Unbarred c ∧ c ≠ ascii '_' ∧ c ≠ ascii '.' := by
  have hdigit : ∀ c, isDigit c = true → Unbarred c ∧ c ≠ ascii '_' ∧ c ≠ ascii '.' := by
    refine forall_byte ?_
    decide +kernel
  have hminus : Unbarred (ascii '-') ∧ ascii '-' ≠ ascii '_' ∧ ascii '-' ≠ ascii '.' := by decide
  intro c hc
  rcases List.mem_append.mp hc with hc | hc
  · split_ifs at hc
    · rwa [List.mem_singleton.mp hc]
    · simp at hc
  · exact hdigit c ((decimal_digits n.natAbs).2 c hc)

/-- An integer that is printed with all its digits. -/
theorem readsBack_number {n : ℤ} (hn : n.natAbs ≤ 10 ^ 10) :
    ReadsBack caseSensitive (strNumber (ofInt n)) (.number (ofInt n)) := by
  have hbuffer : stringBuffer = 4096 := rfl
  have hchars := integerText_chars (n := n)
  have hunderscore : ascii '_' ∉ (integerText n).tail :=
    fun hmem => (hchars _ (List.mem_of_mem_tail hmem)).2.1 rfl
  have hdot : integerText n ≠ [ascii '.'] := fun heq => (hchars (ascii '.') (by simp [heq])).2.2 rfl
  have hlength : (integerText n).length ≤ 12 := by
    have hdigits := length_decimal (n := n.natAbs) (k := 10) (hn.trans_lt (by norm_num))
    rw [integerText, List.length_append]
    split_ifs <;> simp <;> omega
  rw [strNumber_ofInt hn]
  refine readsBack_plain (integerText_ne_nil n) (fun c hc => (hchars c hc).1) hunderscore (by omega)
    hdot ?_
  obtain ⟨c, s, hcs⟩ := List.exists_cons_of_ne_nil (integerText_ne_nil n)
  have hval := strVal_integerText n
  rw [hcs] at hchars hval ⊢
  exact (rlAtom_plain (hchars c (by simp)).1).1 _ hval

/-- **An integer is read back.** -/
theorem readsBack_integer {n : ℤ} (hn : n.natAbs < 10 ^ 9) :
    ReadsBack caseSensitive (strNumber (ofInt n)) (.number (ofInt n)) :=
  readsBack_number (hn.le.trans (by norm_num))

/-- **A symbol is read back.** -/
theorem readsBack_symbol (caseSensitive : Bool) {name : List UInt8}
    (hfree : reservedName name = false) (hprint : ∀ c ∈ name, isPrint c = true) (hbar : ascii '|' ∉ name) (hdot : name ≠ [ascii '.'])
    (hlength : name.length ≤ lineBuffer) :
    ReadsBack caseSensitive (symbolText initCharMap name) (.symbol name) := by
  have hbuffer : stringBuffer = 4096 ∧ lineBuffer = 1024 := ⟨rfl, rfl⟩
  unfold symbolText
  cases hbars : needsBars initCharMap name with
  | true =>
      rw [if_pos rfl]
      refine readsBack_bars (fun c hc => ⟨hprint c hc, ?_⟩) (by omega) hfree
      rintro rfl
      exact hbar hc
  | false =>
      obtain ⟨hname, htail, hval, hne⟩ := needsBars_eq_false_iff.mp hbars
      rw [if_neg Bool.false_ne_true]
      refine readsBack_plain hne hname htail (by omega) hdot ?_
      obtain ⟨c, s, rfl⟩ := List.exists_cons_of_ne_nil hne
      rw [(rlAtom_plain (hname c (by simp))).2 hval, newSymbol, hfree]
      rfl

/-! ## Lists -/

/-- The text after a cell is read as the tree in its `Cdr`. -/
def TailReadsBack (caseSensitive : Bool) (text : List UInt8) (t : Tree) : Prop :=
  ∀ rest tab rounds, text.length < rounds → ∃ tab',
    rlCells initCharMap caseSensitive rounds ⟨text ++ rest, tab⟩ = .ok (t, ⟨rest, tab'⟩)

theorem rlCells_space (rounds : ℕ) (s : List UInt8) :
    rlCells initCharMap caseSensitive rounds ⟨ascii ' ' :: s, tab⟩ =
      rlCells initCharMap caseSensitive rounds ⟨s, tab + 1⟩ := by
  cases rounds with
  | zero => rfl
  | succ rounds => rw [rlCells, rlCells, readWord_space]

/-- At the end of the input there is an empty word. -/
theorem readWord_nil : readWord initCharMap caseSensitive ⟨[], 0⟩ = .ok ([], ⟨[], 0⟩) := by
  cases caseSensitive <;> decide +kernel

theorem ReadsBack.length_pos {text : List UInt8} {t : Tree} (h : ReadsBack caseSensitive text t) :
    0 < text.length := by
  refine List.length_pos_of_ne_nil ?_
  rintro rfl
  obtain ⟨word, input, _, hword, hordinary, -⟩ := h [] (by simp [Ends]) 0 1 (by simp)
  rw [List.nil_append, readWord_nil] at hword
  cases hword
  exact hordinary.1 rfl

theorem TailReadsBack.length_pos {text : List UInt8} {t : Tree}
    (h : TailReadsBack caseSensitive text t) : 0 < text.length := by
  refine List.length_pos_of_ne_nil ?_
  rintro rfl
  obtain ⟨_, heq⟩ := h [] 0 1 (by simp)
  rw [List.nil_append, rlCells, readWord_nil] at heq
  cases heq

/-- The loop reads an element, and then what comes after it. -/
theorem TailReadsBack.cons {text tail : List UInt8} {t t' : Tree}
    (ht : ReadsBack caseSensitive text t) (ht' : TailReadsBack caseSensitive tail t')
    (hends : ∀ rest, Ends (tail ++ rest)) :
    TailReadsBack caseSensitive (text ++ tail) (.cons t t') := by
  intro rest tab rounds hrounds
  have htext := ht.length_pos
  have htail := ht'.length_pos
  rw [List.length_append] at hrounds
  obtain ⟨rounds, rfl⟩ : ∃ k, rounds = k + 1 := ⟨rounds - 1, by omega⟩
  obtain ⟨word, input, tab', hword, ⟨hne, hclose, hdot, hdieze⟩, hread⟩ :=
    ht (tail ++ rest) (hends rest) tab rounds (by omega)
  obtain ⟨tab'', hcells⟩ := ht' rest tab' rounds (by omega)
  refine ⟨tab'', ?_⟩
  rw [List.append_assoc, rlCells, hword]
  simp only [Bind.bind, Except.bind, if_neg hne, if_neg hclose, if_neg hdot, if_neg hdieze, hread,
    hcells]

/-- A dotted tail. -/
theorem TailReadsBack.dotted {text : List UInt8} {t : Tree} (ht : ReadsBack caseSensitive text t) :
    TailReadsBack caseSensitive (dottedText text) t := by
  intro rest tab rounds hrounds
  have hdot : Unbarred (ascii '.') := by decide
  have hspace : Ends (ascii ' ' :: (text ++ ascii ')' :: rest)) := by
    rintro _ ⟨⟩
    exact Or.inr (Or.inl (by decide))
  have hclose : Ends (ascii ')' :: rest) := by
    rintro _ ⟨⟩
    exact Or.inl (by decide)
  simp only [dottedText, List.length_cons, List.length_append, List.length_nil] at hrounds
  obtain ⟨rounds, rfl⟩ : ∃ k, rounds = k + 1 := ⟨rounds - 1, by omega⟩
  obtain ⟨tab1, hword1⟩ := readWord_plain caseSensitive (tab + 1) hspace
    (show [ascii '.'] ≠ [] by simp) (by simpa using hdot) (by simp) (by decide)
  obtain ⟨word, input, tab2, hword, ⟨hne, -⟩, hread⟩ := ht (ascii ')' :: rest) hclose (tab1 + 1)
    rounds (by omega)
  refine ⟨tabAfter (ascii ')') tab2, ?_⟩
  have htext : dottedText text ++ rest =
      ascii ' ' :: ([ascii '.'] ++ (ascii ' ' :: (text ++ ascii ')' :: rest))) := by
    simp [dottedText]
  rw [htext, rlCells_space, rlCells, hword1]
  simp only [Bind.bind, Except.bind, readWord_space, hword, hread, rlClose,
    readWord_paren (Or.inr rfl), if_neg hne]
  rfl

/-- The closing parenthesis. -/
theorem TailReadsBack.nil : TailReadsBack caseSensitive [ascii ')'] .nil := by
  intro rest tab rounds hrounds
  obtain ⟨rounds, rfl⟩ : ∃ k, rounds = k + 1 := ⟨rounds - 1, by omega⟩
  refine ⟨tabAfter (ascii ')') tab, ?_⟩
  rw [rlCells, List.singleton_append, readWord_paren (Or.inr rfl)]
  rfl

/-- A list. -/
theorem TailReadsBack.list {text : List UInt8} {t : Tree}
    (ht : TailReadsBack caseSensitive text t) : ReadsBack caseSensitive (ascii '(' :: text) t := by
  intro rest _ tab rounds hrounds
  rw [List.length_cons] at hrounds
  obtain ⟨rounds, rfl⟩ : ∃ k, rounds = k + 1 := ⟨rounds - 1, by omega⟩
  obtain ⟨tab', heq⟩ := ht rest (tabAfter (ascii '(') tab) rounds (by omega)
  refine ⟨[ascii '('], ⟨text ++ rest, tabAfter (ascii '(') tab⟩, tab',
    readWord_paren (Or.inl rfl) _, ?_, ?_⟩
  · unfold Ordinary
    decide
  · rw [rlRead, if_neg (by decide), if_pos rfl, heq]

theorem TailReadsBack.space {text : List UInt8} {t : Tree}
    (ht : TailReadsBack caseSensitive text t) : TailReadsBack caseSensitive (ascii ' ' :: text) t := by
  intro rest tab rounds hrounds
  obtain ⟨tab', heq⟩ := ht rest (tab + 1) rounds (by rw [List.length_cons] at hrounds; omega)
  exact ⟨tab', by rw [List.cons_append, rlCells_space, heq]⟩

/-- What follows an element ends it. -/
theorem ends_tailText (t : Tree) (rest : List UInt8) :
    Ends (t.tailText initCharMap ++ rest) := by
  have hspace : isSpace (ascii ' ') = true := by decide
  have hclose : (initCharMap (ascii ')')).interword = true := by decide
  cases t <;> rintro _ ⟨⟩
  exacts [Or.inl hclose, Or.inr (Or.inl hspace), Or.inr (Or.inl hspace), Or.inr (Or.inl hspace),
    Or.inr (Or.inl hspace)]

/-- The atoms of a tree are read back. -/
def AtomsReadBack (caseSensitive : Bool) : Tree → Prop
  | .nil => True
  | .cons car cdr => AtomsReadBack caseSensitive car ∧ AtomsReadBack caseSensitive cdr
  | t => ReadsBack caseSensitive (t.text initCharMap) t

/-- **The text of a tree is read as this tree**, when the texts of its atoms are. -/
theorem readsBack_of_atoms {t : Tree} (h : AtomsReadBack caseSensitive t) :
    ReadsBack caseSensitive (t.text initCharMap) t ∧
      TailReadsBack caseSensitive (t.tailText initCharMap) t := by
  induction t with
  | nil => exact ⟨TailReadsBack.nil.list, .nil⟩
  | number x => exact ⟨h, .dotted h⟩
  | string s => exact ⟨h, .dotted h⟩
  | symbol name => exact ⟨h, .dotted h⟩
  | cons car cdr ihcar ihcdr =>
      have hcells := TailReadsBack.cons (ihcar h.1).1 (ihcdr h.2).2 (ends_tailText cdr)
      exact ⟨hcells.list, hcells.space⟩

/-- Where a text begins, nothing is skipped. -/
def Begins (text : List UInt8) : Prop :=
  ∃ c s, text = c :: s ∧ c ≠ ascii '\r' ∧ c ≠ ascii ';' ∧ ¬(isAscii c ∧ isSpace c) ∧ c ≠ ascii ')'

/-- `read_list` on a text that is read back. -/
theorem readList_of_readsBack {text rest : List UInt8} {t : Tree} (hbegins : Begins text)
    (h : ReadsBack caseSensitive text t) (hends : Ends rest) (tab : ℕ) :
    ∃ tab', readList initCharMap caseSensitive ⟨text ++ rest, tab⟩ = .ok (t, ⟨rest, tab'⟩) := by
  obtain ⟨c, s, htext, hcr, hcomment, hspace, hclose⟩ := hbegins
  have hskip : skipClosing ((text ++ rest).length + 1) ⟨text ++ rest, tab⟩ =
      ⟨text ++ rest, tab⟩ := by
    rw [htext, List.cons_append, skipClosing, skipToExpr_self _ hcr hcomment hspace]
    simp only [nextChar_cons hcr, if_neg hclose]
  obtain ⟨word, input, tab', hword, -, hread⟩ := h rest hends tab
    (2 * (text ++ rest).length + 2) (by rw [List.length_append]; omega)
  refine ⟨tab', ?_⟩
  unfold readList
  simp only [hskip, hword, Bind.bind, Except.bind]
  exact hread

theorem begins_plain {name : List UInt8} (hne : name ≠ []) (hname : ∀ c ∈ name, Unbarred c) :
    Begins name := by
  obtain ⟨c, s, rfl⟩ := List.exists_cons_of_ne_nil hne
  have hc : Unbarred c := hname c (by simp)
  obtain ⟨hcr, hcomment, -, -, -, -, hspace, -⟩ := hc.facts
  exact ⟨c, s, rfl, hcr, hcomment, hspace, hc.ne.2.1⟩

theorem begins_integer {n : ℤ} (hn : n.natAbs < 10 ^ 9) : Begins (strNumber (ofInt n)) := by
  rw [strNumber_ofInt (hn.le.trans (by norm_num))]
  exact begins_plain (integerText_ne_nil n) fun c hc => (integerText_chars c hc).1

theorem begins_symbol (name : List UInt8) : Begins (symbolText initCharMap name) := by
  rw [symbolText]
  cases hbars : needsBars initCharMap name with
  | true => exact ⟨_, _, rfl, by decide⟩
  | false =>
      obtain ⟨hname, -, -, hne⟩ := needsBars_eq_false_iff.mp hbars
      exact begins_plain hne hname

theorem begins_nil : Begins (Tree.nil.text initCharMap) := ⟨_, _, rfl, by decide⟩

theorem begins_cons (car cdr : Tree) : Begins ((Tree.cons car cdr).text initCharMap) :=
  ⟨_, _, rfl, by decide⟩

end Lush.Text

namespace Lush

open Text

/-- A structure of cells, integers of at most nine digits, and symbols with names that
`print_list` and `read_list` can handle. -/
def Tree.Readable : Tree → Prop
  | .nil => True
  | .number x => ∃ n : ℤ, n.natAbs < 10 ^ 9 ∧ x = ofInt n
  | .string _ => False
  | .symbol name => (∀ c ∈ name, isPrint c = true) ∧ ascii '|' ∉ name ∧ name ≠ [ascii '.'] ∧
      name.length + (if needsBars initCharMap name then 1 else 0) ≤ lineBuffer - 8
  | .cons car cdr => car.Readable ∧ cdr.Readable

variable {ν : Type} {heap : ν → Object (Option ν)} {p : Option ν} {t : Tree}

/-- The atoms that can be read are printed whole. -/
theorem Tree.Readable.fits (h : t.Readable) : t.Fits initCharMap := by
  have hbuffer : lineBuffer = 1024 := rfl
  induction t with
  | nil => exact Nat.zero_le _
  | number x =>
      obtain ⟨n, hn, rfl⟩ := h
      have := length_integerText hn
      rw [← strNumber_ofInt (hn.le.trans (by norm_num))] at this
      exact this.trans (by omega)
  | string s => exact h.elim
  | symbol name => exact h.2.2.2
  | cons car cdr ihcar ihcdr => exact ⟨ihcar h.1, ihcdr h.2⟩

/-- The atoms of a structure that can be read are read back. -/
theorem atomsReadBack_of_reads (h : Reads heap p t) (hreadable : t.Readable)
    (caseSensitive : Bool) : AtomsReadBack caseSensitive t := by
  induction h with
  | nil => trivial
  | number _ =>
      obtain ⟨n, hn, rfl⟩ := hreadable
      exact readsBack_integer hn
  | string _ => exact hreadable.elim
  | @symbol _ name _ =>
      obtain ⟨hprint, hbar, hdot, hlength⟩ := hreadable
      exact readsBack_symbol caseSensitive name.unreserved hprint hbar hdot
        ((Nat.le_of_add_right_le hlength).trans (Nat.sub_le _ _))
  | cons _ _ _ ihcar ihcdr => exact ⟨ihcar hreadable.1, ihcdr hreadable.2⟩

theorem begins_text (hreadable : t.Readable) : Begins (t.text initCharMap) := by
  cases t with
  | nil => exact begins_nil
  | cons car cdr => exact begins_cons car cdr
  | string s => exact hreadable.elim
  | number x =>
      obtain ⟨n, hn, rfl⟩ := hreadable
      exact begins_integer hn
  | symbol name => exact begins_symbol name

/-- **Lists print readably.**  A structure without a cycle, made of cells, integers of at
most nine digits, and symbols with printable names that are short enough, other than
the dot and without a bar, is printed by `print_list`, and by `pname` when the text is
not too long for its buffer.  Whatever ends a word after it, `read_list` reads this text
as the same structure and stops right after it. -/
theorem readList_printList [DecidableEq ν] [Fintype ν] (h : Reads heap p t)
    (hreadable : t.Readable) (caseSensitive : Bool) {rest : List UInt8} (hends : Ends rest)
    (tab : ℕ) :
    ∃ text, printList initCharMap heap p = .ok text ∧
      (text.length ≤ lineBuffer - 8 → pname initCharMap heap p = .ok text) ∧
      ∃ tab', readList initCharMap caseSensitive ⟨text ++ rest, tab⟩ = .ok (t, ⟨rest, tab'⟩) := by
  refine ⟨t.text initCharMap, printList_ok h hreadable.fits, pname_ok h, ?_⟩
  have hreads := (readsBack_of_atoms (atomsReadBack_of_reads h hreadable caseSensitive)).1
  exact readList_of_readsBack (begins_text hreadable) hreads hends tab

/-! ## Examples -/

/-- The objects of the list `(foo |A b| () . -12)`. -/
inductive DottedCell
  | first
  | second
  | third
  | foo
  | quoted
  | twelve
deriving DecidableEq

instance : Fintype DottedCell where
  elems := {.first, .second, .third, .foo, .quoted, .twelve}
  complete x := by cases x <;> decide

/-- The name `foo`. -/
def fooName : SymbolName := ⟨⟨[102, 111, 111], by decide⟩, by decide⟩

/-- The name `A b`, which needs bars. -/
def quotedName : SymbolName := ⟨⟨[65, 32, 98], by decide⟩, by decide⟩

/-- The list `(foo |A b| () . -12)`. -/
def dottedHeap : DottedCell → Object (Option DottedCell)
  | .first => .cons (some .foo) (some .second)
  | .second => .cons (some .quoted) (some .third)
  | .third => .cons none (some .twelve)
  | .foo => .symbol fooName
  | .quoted => .symbol quotedName
  | .twelve => .number (ofInt (-12))

/-- The tree of this list. -/
def dottedTree : Tree :=
  .cons (.symbol fooName.bytes) (.cons (.symbol quotedName.bytes)
    (.cons .nil (.number (ofInt (-12)))))

/-- The list is read back. -/
theorem readList_printList_dotted :
    ∃ text, printList initCharMap dottedHeap (some .first) = .ok text ∧
      (text.length ≤ lineBuffer - 8 → pname initCharMap dottedHeap (some .first) = .ok text) ∧
      ∃ tab', readList initCharMap false ⟨text ++ [ascii '\n'], 0⟩ =
        .ok (dottedTree, ⟨[ascii '\n'], tab'⟩) := by
  have hreads : Reads dottedHeap (some .first) dottedTree :=
    .cons rfl (.symbol rfl) (.cons rfl (.symbol rfl) (.cons rfl .nil (.number rfl)))
  have hreadable : dottedTree.Readable :=
    ⟨⟨by decide +kernel, by decide, by decide, by decide⟩,
      ⟨by decide +kernel, by decide, by decide, by decide⟩, trivial, -12, by decide, rfl⟩
  have hends : Ends [ascii '\n'] := by
    rintro _ ⟨⟩
    exact Or.inr (Or.inl (by decide))
  exact readList_printList hreads hreadable false hends 0

/-- A symbol whose name is 1017 times the letter `a`. -/
def longHeap : Unit → Object (Option Unit) := fun _ =>
  .symbol ⟨⟨List.replicate 1017 97, by decide +kernel⟩, by decide +kernel⟩

/-- The length of the name that was read. -/
def nameLength : Except Fault (Tree × Input) → ℕ
  | .ok (.symbol name, _) => name.length
  | _ => 0

/-- This symbol is not read back: `pname` breaks off its name. -/
theorem readList_long : ¬∃ text, printList initCharMap longHeap (some ()) = .ok text ∧
    ∃ input, readList initCharMap false ⟨text, 0⟩ = .ok (.symbol (List.replicate 1017 97), input) := by
  rintro ⟨text, hprint, input, hread⟩
  have hbroken : printList initCharMap longHeap (some ()) =
      .ok (List.replicate 1016 97 ++ brokenOff) := by
    decide +kernel
  have hlength : nameLength (readList initCharMap false ⟨List.replicate 1016 97 ++ brokenOff, 0⟩) =
      1016 := by
    decide +kernel
  rw [hbroken] at hprint
  cases hprint
  rw [hread, nameLength, List.length_replicate] at hlength
  exact absurd hlength (by decide)

end Lush
