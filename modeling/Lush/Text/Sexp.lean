import Lush.Text.ListRoundTrip
import Lush.Text.StringRoundTrip

/-!
# Expressions in files

Programs keep lists of symbols, strings and numbers in files: they print an expression and
a newline, and read it back later.  An expression comes back when its atoms do
(`readSexp_writeSexp`): integers of at most nine digits, symbols with ordinary names, and
strings that are read back after `string_name` and are not broken off by `pname`.
-/

namespace Lush

open Text

/-- A string that is printed whole and read back. -/
structure Text.Comes (s : List UInt8) : Prop where
  nonzero : 0 ∉ s
  fits : (stringText s).length ≤ lineBuffer - 8
  ends : ¬Swallows s

/-- The atoms of an expression are printed whole and read back. -/
def Tree.Sound : Tree → Prop
  | .nil => True
  | .number x => ∃ n : ℤ, n.natAbs < 10 ^ 9 ∧ x = ofInt n
  | .string s => Comes s
  | .symbol name => reservedName name = false ∧ (∀ c ∈ name, isPrint c = true) ∧ ascii '|' ∉ name ∧
      name ≠ [ascii '.'] ∧
      name.length + (if needsBars initCharMap name then 1 else 0) ≤ lineBuffer - 8
  | .cons car cdr => car.Sound ∧ cdr.Sound

/-! ## Lists -/

namespace Tree

/-- `(list ..)`. -/
def list : List Tree → Tree
  | [] => .nil
  | t :: ts => .cons t (list ts)

/-- The elements of a list. -/
def elements : Tree → List Tree
  | .cons car cdr => car :: elements cdr
  | _ => []

/-- `car`. -/
def car : Tree → Except Fault Tree
  | .nil => .ok .nil
  | .cons car _ => .ok car
  | _ => .error (.error "not a list")

/-- `cdr`. -/
def cdr : Tree → Except Fault Tree
  | .nil => .ok .nil
  | .cons _ cdr => .ok cdr
  | _ => .error (.error "not a list")

/-- `assoc`, for a symbol. -/
def assoc (key : List UInt8) : Tree → Tree
  | .cons (.cons (.symbol name) value) rest =>
      if name = key then .cons (.symbol name) value else assoc key rest
  | .cons _ rest => assoc key rest
  | _ => .nil

/-- `(cadr (assoc key sexp))`. -/
def valueOf (key : List UInt8) (sexp : Tree) : Except Fault Tree := do
  let rest ← cdr (assoc key sexp)
  car rest

@[simp] theorem elements_list (ts : List Tree) : (list ts).elements = ts := by
  induction ts with
  | nil => rfl
  | cons t ts ih => rw [list, elements, ih]

theorem sound_list {ts : List Tree} (h : ∀ t ∈ ts, t.Sound) : (list ts).Sound := by
  induction ts with
  | nil => trivial
  | cons t ts ih =>
      rw [List.forall_mem_cons] at h
      exact ⟨h.1, ih h.2⟩

end Tree

namespace Text

variable {caseSensitive : Bool}

/-- `(print sexp)` and `(printf "\n")`. -/
def writeSexp (t : Tree) : List UInt8 := t.printed initCharMap ++ [ascii '\n']

/-- `(read)`, at the start of a file. -/
def readSexp (caseSensitive : Bool) (file : List UInt8) : Except Fault Tree := do
  let (t, _) ← readList initCharMap caseSensitive ⟨file, 0⟩
  .ok t

/-! ## Strings -/

theorem length_nameLoop (off : ℕ) (s : List UInt8) (hoff : off ≤ stringBuffer) :
    nameLoop off s = s.flatMap escape ∨ stringBuffer - 10 ≤ off + (nameLoop off s).length := by
  induction s generalizing off with
  | nil => exact Or.inl rfl
  | cons c s ih =>
      have hescape := length_escape c
      have hbuffer : stringBuffer = 4096 := rfl
      rw [nameLoop]
      split_ifs with hlt
      · exact Or.inr (by simpa using hlt)
      · rcases ih (off + (escape c).length) (by omega) with heq | hle
        · exact Or.inl (by rw [heq, List.flatMap_cons])
        · right
          rw [List.length_append]
          omega

/-- A text that `pname` copies whole is not broken off by `string_name`. -/
theorem Comes.fitsBuffer {s : List UInt8} (h : Comes s) : Fits s := by
  have hbuffer : stringBuffer = 4096 ∧ lineBuffer = 1024 := ⟨rfl, rfl⟩
  have hlength := h.fits
  rw [stringText] at hlength
  simp only [List.cons_append, List.length_cons, List.length_append, List.length_nil] at hlength
  rcases length_nameLoop 1 s (by omega) with heq | hle
  · rw [heq] at hlength
    have hdrop : (s.dropLast.flatMap escape).length ≤ (s.flatMap escape).length :=
      ((List.dropLast_sublist s).flatMap escape).length_le
    unfold Fits
    omega
  · omega

/-- **A string is read back** in the middle of an expression. -/
theorem readsBack_string {s : List UInt8} (h : Comes s) :
    ReadsBack caseSensitive (stringText s) (.string s) := by
  intro rest _ tab rounds hrounds
  have hquote : ascii '\"' = 34 := rfl
  obtain ⟨tab', hread⟩ := (readString_stringName initCharMap caseSensitive ⟨s, h.nonzero⟩
    h.fitsBuffer rest tab).mpr h.ends
  have htext : stringText s ++ rest = 34 :: (nameLoop 1 s ++ 34 :: rest) := by
    simp [stringText, hquote]
  have hname : stringName ⟨s, h.nonzero⟩ ++ rest = 34 :: (nameLoop 1 s ++ 34 :: rest) := by
    simp [stringName, hquote]
  rw [hname, readString, readWord_quote] at hread
  rw [htext, readWord_quote]
  obtain ⟨⟨word, input⟩, hword, hread⟩ := bind_ok.mp hread
  obtain ⟨⟨inner, input'⟩, hinner, hword⟩ := bind_ok.mp hword
  cases hword
  obtain ⟨string, hstring, hread⟩ := bind_ok.mp hread
  cases hread
  have hne : (34 : UInt8) ≠ ascii ')' ∧ (34 : UInt8) ≠ ascii '.' ∧ (34 : UInt8) ≠ ascii '#' ∧
      (34 : UInt8) ≠ ascii '(' := by decide
  refine ⟨34 :: inner, ⟨rest, tab'⟩, tab', ?_, ⟨by simp, by simp [hne.1], by simp [hne.2.1],
    by simpa using hne.2.2.1⟩, ?_⟩
  · rw [hinner]
    rfl
  · refine rlRead_atom (by simp [hne.2.1]) (by simp [hne.2.2.2]) ?_ (by omega) _
    have hmap : (initCharMap 34).binary = false ∧ (initCharMap 34).mchar = false := by decide
    have hstring' : rlString inner = .ok ⟨s, h.nonzero⟩ := hstring
    simp [rlAtom, hmap, hstring', Bind.bind, Except.bind, ascii]

/-! ## Expressions -/

theorem Comes.begins (s : List UInt8) : Begins (stringText s) := ⟨_, _, rfl, by decide⟩

theorem atomsReadBack_of_sound {t : Tree} (h : t.Sound) : AtomsReadBack caseSensitive t := by
  induction t with
  | nil => trivial
  | number x =>
      obtain ⟨n, hn, rfl⟩ := h
      exact readsBack_integer hn
  | string s => exact readsBack_string h
  | symbol name =>
      obtain ⟨hfree, hprint, hbar, hdot, hlength⟩ := h
      exact readsBack_symbol caseSensitive hfree hprint hbar hdot
        ((Nat.le_of_add_right_le hlength).trans (Nat.sub_le _ _))
  | cons car cdr ihcar ihcdr => exact ⟨ihcar h.1, ihcdr h.2⟩

theorem begins_of_sound {t : Tree} (h : t.Sound) : Begins (t.text initCharMap) := by
  cases t with
  | nil => exact begins_nil
  | cons car cdr => exact begins_cons car cdr
  | string s => exact Comes.begins s
  | number x =>
      obtain ⟨n, hn, rfl⟩ := h
      exact begins_integer hn
  | symbol name => exact begins_symbol name

theorem fits_of_sound {t : Tree} (h : t.Sound) : t.Fits initCharMap := by
  have hbuffer : lineBuffer = 1024 := rfl
  induction t with
  | nil => exact Nat.zero_le _
  | number x =>
      obtain ⟨n, hn, rfl⟩ := h
      have hlength := length_integerText hn
      rw [← strNumber_ofInt (hn.le.trans (by norm_num))] at hlength
      exact hlength.trans (by omega)
  | string s => exact h.fits
  | symbol name => exact h.2.2.2.2
  | cons car cdr ihcar ihcdr => exact ⟨ihcar h.1, ihcdr h.2⟩

/-- **An expression in a file is read back.** -/
theorem readSexp_writeSexp {t : Tree} (h : t.Sound) :
    readSexp caseSensitive (writeSexp t) = .ok t := by
  have hends : Ends [ascii '\n'] := by
    rintro _ ⟨⟩
    exact Or.inr (Or.inl (by decide))
  have hreads : ReadsBack caseSensitive (t.text initCharMap) t :=
    (readsBack_of_atoms (atomsReadBack_of_sound h)).1
  obtain ⟨tab, hread⟩ := readList_of_readsBack (begins_of_sound h) hreads hends 0
  rw [readSexp, writeSexp, (printed_eq_text (fits_of_sound h)).1, hread]
  rfl

end Text

end Lush
