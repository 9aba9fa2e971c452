import Lush.Trees
import Lush.Text.Numbers
import Lush.Text.Strings

/-!
# Printing objects

`print_list` goes through lists with a slow pointer and a stack, and leaves the
atoms to `pname`.  `pname` converts an object into a text in a buffer, and breaks
off near the end of this buffer.  It can convert lists as well, without regard for
cycles.

On a structure without a cycle both give the text of its tree (`printList_ok`,
`pname_ok`).
-/

namespace Lush.Text

variable {ν : Type}

/-! ## The conversion of an object -/

/-- `LINE_BUFFER`. -/
def lineBuffer : ℕ := 1024

/-- What is left in the buffer when `convert` breaks off. -/
def brokenOff : List UInt8 := [ascii ' ', ascii '.', ascii '.', ascii '.', ascii ' ']

/-- The test of `convert` on the name of a symbol: it is printed between bars when
it would be read as something else. -/
def needsBars (charMap : UInt8 → CharClass) (name : List UInt8) : Bool :=
  name.any (fun c => !isAscii c || isSpace c || isCntrl c || isUpper c || (charMap c).interword) ||
    name.tail.contains (ascii '_') || (strVal name).isSome || name.isEmpty

/-- The copying loop of `convert`, at the position `off` of the buffer: the text and
whether the name was copied to its end. -/
def copyName (last : ℕ) : ℕ → List UInt8 → List UInt8 × Bool
  | _, [] => ([], true)
  | off, c :: name =>
      if off < last - 8 then
        let (text, done) := copyName last (off + 1) name
        (c :: text, done)
      else (brokenOff, false)

/-- `convert`, on an atom.  The `pname` methods that a class may have, and
`generic_name`, are not modelled. -/
def convertAtom (charMap : UInt8 → CharClass) (last off : ℕ) :
    Object (Option ν) → Except Fault (List UInt8 × Bool)
  | .symbol name =>
      if needsBars charMap name.bytes then
        let (text, done) := copyName last (off + 1) name.bytes
        .ok (ascii '|' :: (if done then text ++ [ascii '|'] else text), done)
      else .ok (copyName last off name.bytes)
  | .number x => .ok (copyName last off (strNumber x))
  | .string s => .ok (copyName last off (stringName s))
  | .zombie => .error .unmodelled
  | .cons _ _ => .error .undefined

mutual

/-- `convert`, with the position `off` of `s` in the buffer and the position `last`
of `end`: the text, and whether it is whole. -/
def convert (charMap : UInt8 → CharClass) (heap : ν → Object (Option ν)) (last : ℕ) :
    ℕ → ℕ → Option ν → Except Fault (List UInt8 × Bool)
  | 0, _, _ => .error .depth
  | _ + 1, _, none => .ok ([ascii '(', ascii ')'], true)
  | rounds + 1, off, some a =>
      match heap a with
      | .cons _ _ =>
          if last - 8 < off + 1 then .ok (ascii '(' :: brokenOff, false)
          else do
            let (text, done) ← convertCells charMap heap last rounds (off + 1) a
            .ok (ascii '(' :: text, done)
      | atom => convertAtom charMap last off atom

/-- The loop of `convert` at a cell. -/
def convertCells (charMap : UInt8 → CharClass) (heap : ν → Object (Option ν)) (last : ℕ) :
    ℕ → ℕ → ν → Except Fault (List UInt8 × Bool)
  | 0, _, _ => .error .depth
  | rounds + 1, off, a =>
      match heap a with
      | .cons car cdr => do
          let (text, done) ← convert charMap heap last rounds off car
          if !done then .ok (text, false)
          else
            let close (text : List UInt8) : List UInt8 × Bool :=
              if last - 8 < off + text.length + 1 then (text ++ ascii ')' :: brokenOff, false)
              else (text ++ [ascii ')'], true)
            match cdr with
            | none => .ok (close text)
            | some b =>
                match heap b with
                | .cons _ _ => do
                    let (rest, done) ← convertCells charMap heap last rounds (off + text.length + 1) b
                    .ok (text ++ ascii ' ' :: rest, done)
                | .zombie => .ok (close text)
                | _ => do
                    let (rest, done) ← convert charMap heap last rounds (off + text.length + 3) cdr
                    let text := text ++ ascii ' ' :: ascii '.' :: ascii ' ' :: rest
                    if done then .ok (close text) else .ok (text, false)
      | _ => .error .undefined

end

/-- `pname`.  There are at most two rounds for each character written. -/
def pname (charMap : UInt8 → CharClass) (heap : ν → Object (Option ν)) (p : Option ν) :
    Except Fault (List UInt8) := do
  let (text, _) ← convert charMap heap lineBuffer (2 * lineBuffer + 2) 0 p
  if text.length < lineBuffer then .ok text else .error .undefined

/-! ## The printer -/

mutual

/-- `print_list`: the characters printed.  `stack` holds what `recur_push_ok` has
recorded for `print_list`.  The `print` methods that a class may have are not
modelled. -/
def printRounds [DecidableEq ν] (charMap : UInt8 → CharClass) (heap : ν → Object (Option ν)) :
    ℕ → List (Option ν) → Option ν → Except Fault (List UInt8)
  | 0, _, _ => .error .depth
  | _ + 1, _, none => .ok [ascii '(', ascii ')']
  | fuel + 1, stack, some a =>
      match heap a with
      | .cons _ _ => do
          let text ← printCells charMap heap fuel stack (some a) false a
          .ok (ascii '(' :: text)
      | _ => pname charMap heap (some a)

/-- The loop of `print_list` at a cell. -/
def printCells [DecidableEq ν] (charMap : UInt8 → CharClass) (heap : ν → Object (Option ν)) :
    ℕ → List (Option ν) → Option ν → Bool → ν → Except Fault (List UInt8)
  | 0, _, _, _, _ => .error .depth
  | fuel + 1, stack, slow, toggle, a =>
      match heap a with
      | .cons car cdr => do
          let text ← (if car ∈ stack then
              .ok [ascii '(', ascii '.', ascii '.', ascii '.', ascii ')']
            else printRounds charMap heap fuel (car :: stack) car)
          if cdr = slow then
            .ok (text ++ [ascii ' ', ascii '.', ascii '.', ascii '.', ascii ')'])
          else
            match cdr with
            | none => .ok (text ++ [ascii ')'])
            | some b =>
                match heap b with
                | .cons _ _ => do
                    let toggle := !toggle
                    let slow ← (if toggle then readCdr heap slow else .ok slow)
                    let rest ← printCells charMap heap fuel stack slow toggle b
                    .ok (text ++ ascii ' ' :: rest)
                | .zombie => .ok (text ++ [ascii ')'])
                | _ => do
                    let rest ← printRounds charMap heap fuel stack cdr
                    .ok (text ++ ascii ' ' :: ascii '.' :: ascii ' ' :: (rest ++ [ascii ')']))
      | _ => .error .undefined

end

/-- `print_list`.  The stack cuts the recursion, and the slow pointer every list. -/
def printList [DecidableEq ν] [Fintype ν] (charMap : UInt8 → CharClass)
    (heap : ν → Object (Option ν)) (p : Option ν) : Except Fault (List UInt8) :=
  printRounds charMap heap ((Fintype.card ν + 2) * (2 * Fintype.card ν + 5)) [] p

/-! ## The text of a tree -/

/-- The text of a symbol. -/
def symbolText (charMap : UInt8 → CharClass) (name : List UInt8) : List UInt8 :=
  if needsBars charMap name then ascii '|' :: (name ++ [ascii '|']) else name

/-- The text of a string. -/
def stringText (s : List UInt8) : List UInt8 :=
  ascii '\"' :: nameLoop 1 s ++ [ascii '\"']

/-- A dotted tail, with the closing parenthesis. -/
def dottedText (text : List UInt8) : List UInt8 :=
  ascii ' ' :: ascii '.' :: ascii ' ' :: (text ++ [ascii ')'])

theorem copyName_ok {last off : ℕ} {s : List UInt8} (h : off + s.length ≤ last - 8) :
    copyName last off s = (s, true) := by
  induction s generalizing off with
  | nil => rfl
  | cons c s ih =>
      rw [List.length_cons] at h
      rw [copyName, if_pos (by omega), ih (by omega)]

end Lush.Text

namespace Lush

open Text

namespace Tree

mutual

/-- The text of a tree. -/
def text (charMap : UInt8 → CharClass) : Tree → List UInt8
  | .nil => [ascii '(', ascii ')']
  | .number x => strNumber x
  | .string s => stringText s
  | .symbol name => symbolText charMap name
  | .cons car cdr => ascii '(' :: (car.text charMap ++ cdr.tailText charMap)

/-- The text of the `Cdr` of a cell, up to the closing parenthesis. -/
def tailText (charMap : UInt8 → CharClass) : Tree → List UInt8
  | .nil => [ascii ')']
  | .number x => dottedText (strNumber x)
  | .string s => dottedText (stringText s)
  | .symbol name => dottedText (symbolText charMap name)
  | .cons car cdr => ascii ' ' :: (car.text charMap ++ cdr.tailText charMap)

end

/-- The space that an atom takes in the buffer: `convert` looks at what is left before
each character of a name, and not before the closing bar. -/
def space (charMap : UInt8 → CharClass) : Tree → ℕ
  | .number x => (strNumber x).length
  | .string s => (stringText s).length
  | .symbol name => name.length + (if needsBars charMap name then 1 else 0)
  | .nil | .cons _ _ => 0

/-- The atoms are short enough to be copied whole. -/
def Fits (charMap : UInt8 → CharClass) : Tree → Prop
  | .cons car cdr => car.Fits charMap ∧ cdr.Fits charMap
  | t => t.space charMap ≤ lineBuffer - 8

/-- What `pname` copies of an atom into its buffer. -/
def atomText (charMap : UInt8 → CharClass) : Tree → List UInt8
  | .number x => (copyName lineBuffer 0 (strNumber x)).1
  | .string s => (copyName lineBuffer 0 (stringText s)).1
  | .symbol name =>
      if needsBars charMap name then
        let copy := copyName lineBuffer 1 name
        ascii '|' :: (if copy.2 then copy.1 ++ [ascii '|'] else copy.1)
      else (copyName lineBuffer 0 name).1
  | .nil => [ascii '(', ascii ')']
  | .cons _ _ => []

mutual

/-- What `print_list` prints: the atoms may be broken off. -/
def printed (charMap : UInt8 → CharClass) : Tree → List UInt8
  | .cons car cdr => ascii '(' :: (car.printed charMap ++ cdr.printedTail charMap)
  | t => t.atomText charMap

/-- What it prints of the `Cdr` of a cell. -/
def printedTail (charMap : UInt8 → CharClass) : Tree → List UInt8
  | .nil => [ascii ')']
  | .cons car cdr => ascii ' ' :: (car.printed charMap ++ cdr.printedTail charMap)
  | t => dottedText (t.atomText charMap)

end

end Tree

namespace Text

variable {ν : Type} {charMap : UInt8 → CharClass} {heap : ν → Object (Option ν)} {p : Option ν}
  {t u v : Tree}

/-- `convert` copies an atom when there is enough space for it. -/
theorem convert_atom {a : ν} {last off : ℕ} (h : Reads heap (some a) t)
    (hcons : ∀ u v, t ≠ .cons u v) (hspace : off + t.space charMap ≤ last - 8) (rounds : ℕ) :
    convert charMap heap last (rounds + 1) off (some a) = .ok (t.text charMap, true) := by
  cases h with
  | number ha | string ha =>
      simp only [convert, ha, convertAtom]
      exact congrArg Except.ok (copyName_ok hspace)
  | @symbol _ name ha =>
      rw [Tree.space] at hspace
      simp only [convert, ha, convertAtom, Tree.text, symbolText]
      by_cases hbars : needsBars charMap name.bytes = true
      · rw [if_pos hbars] at hspace ⊢
        rw [if_pos hbars, copyName_ok (by omega)]
        rfl
      · rw [if_neg hbars] at hspace ⊢
        rw [if_neg hbars, copyName_ok hspace]
  | cons _ _ _ => exact absurd rfl (hcons _ _)

theorem space_le (t : Tree) : t.space charMap ≤ (t.text charMap).length := by
  cases t with
  | nil | cons _ _ => exact Nat.zero_le _
  | number _ | string _ => exact le_rfl
  | symbol name =>
      rw [Tree.space, Tree.text, symbolText]
      split_ifs with hbars
      · simp
      · exact le_rfl

/-- **`convert` writes the text of the tree**, when there is enough space for it. -/
theorem convert_ok {last : ℕ} (h : Reads heap p t) :
    (∀ rounds off, off + (t.text charMap).length ≤ last - 8 → (t.text charMap).length < rounds →
      convert charMap heap last rounds off p = .ok (t.text charMap, true)) ∧
    (∀ a u v, p = some a → t = .cons u v → ∀ rounds off,
      off + (u.text charMap ++ v.tailText charMap).length ≤ last - 8 →
      (u.text charMap ++ v.tailText charMap).length < rounds →
      convertCells charMap heap last rounds off a =
        .ok (u.text charMap ++ v.tailText charMap, true)) := by
  have hatom : ∀ {a : ν} {t : Tree}, Reads heap (some a) t → (∀ u v, t ≠ .cons u v) →
      ∀ rounds off, off + (t.text charMap).length ≤ last - 8 → (t.text charMap).length < rounds →
      convert charMap heap last rounds off (some a) = .ok (t.text charMap, true) := by
    intro a t h hcons rounds off hoff hrounds
    obtain ⟨rounds, rfl⟩ : ∃ k, rounds = k + 1 := ⟨rounds - 1, by omega⟩
    exact convert_atom h hcons ((Nat.add_le_add_left (space_le t) off).trans hoff) rounds
  induction h with
  | nil =>
      refine ⟨fun rounds off _ hrounds => ?_, fun a u v ha => by cases ha⟩
      obtain ⟨rounds, rfl⟩ := Nat.exists_eq_add_of_lt hrounds
      rfl
  | number ha => exact ⟨hatom (.number ha) (by simp), fun a u v _ ht => by cases ht⟩
  | string ha => exact ⟨hatom (.string ha) (by simp), fun a u v _ ht => by cases ht⟩
  | symbol ha => exact ⟨hatom (.symbol ha) (by simp), fun a u v _ ht => by cases ht⟩
  | @cons a car cdr t t' ha _ hcdr ihcar ihcdr =>
      have hcells : ∀ rounds off,
          off + (t.text charMap ++ t'.tailText charMap).length ≤ last - 8 →
          (t.text charMap ++ t'.tailText charMap).length < rounds →
          convertCells charMap heap last rounds off a =
            .ok (t.text charMap ++ t'.tailText charMap, true) := by
        intro rounds off hoff hrounds
        rw [List.length_append] at hoff hrounds
        obtain ⟨rounds, rfl⟩ : ∃ k, rounds = k + 1 := ⟨rounds - 1, by omega⟩
        have htail : 1 ≤ (t'.tailText charMap).length := by
          cases t' <;> simp [Tree.tailText, dottedText]
        have hcar := ihcar.1 rounds off (by omega) (by omega)
        simp only [convertCells, ha, hcar, Bind.bind, Except.bind, Bool.not_true, Bool.false_eq_true,
          if_false]
        cases hcdr with
        | nil =>
            simp only [Tree.tailText, List.length_singleton] at hoff ⊢
            rw [if_neg (by omega)]
        | number hb | string hb | symbol hb =>
            simp only [Tree.tailText, dottedText, List.length_cons, List.length_append] at hoff hrounds
            have hdotted := ihcdr.1 rounds (off + (t.text charMap).length + 3)
            simp only [Tree.text] at hdotted
            simp only [List.length_nil] at hoff hrounds
            simp only [hb, hdotted (by omega) (by omega), Tree.tailText, dottedText, if_true]
            rw [if_neg (by simp only [List.length_append, List.length_cons]; omega)]
            simp
        | cons hb _ _ =>
            simp only [Tree.tailText, List.length_cons] at hoff hrounds
            have hnext := ihcdr.2 _ _ _ rfl rfl rounds (off + (t.text charMap).length + 1)
              (by omega) (by omega)
            simp only [hb, hnext, Tree.tailText]
      refine ⟨fun rounds off hoff hrounds => ?_, ?_⟩
      · rw [Tree.text, List.length_cons] at hoff hrounds
        obtain ⟨rounds, rfl⟩ : ∃ k, rounds = k + 1 := ⟨rounds - 1, by omega⟩
        simp only [convert, ha, if_neg (show ¬last - 8 < off + 1 by omega),
          hcells rounds (off + 1) (by omega) (by omega)]
        rfl
      · rintro _ _ _ hp ht
        cases hp
        cases ht
        exact hcells

/-- **`pname` gives the text of the tree**, when it is not too long for its buffer. -/
theorem pname_ok (h : Reads heap p t) (hspace : (t.text charMap).length ≤ lineBuffer - 8) :
    pname charMap heap p = .ok (t.text charMap) := by
  have hbuffer : lineBuffer = 1024 := rfl
  have hconvert : convert charMap heap lineBuffer (2 * lineBuffer + 2) 0 p =
      .ok (t.text charMap, true) :=
    (convert_ok h).1 _ 0 (by omega) (by omega)
  unfold pname
  rw [hconvert]
  exact if_pos (by omega)

theorem length_copyName (last off : ℕ) (s : List UInt8) (hoff : off ≤ last - 8) :
    off + (copyName last off s).1.length ≤ last - 8 + 5 := by
  induction s generalizing off with
  | nil =>
      show off + 0 ≤ last - 8 + 5
      omega
  | cons c s ih =>
      rw [copyName]
      split_ifs with hlt
      · have hrest := ih (off + 1) (by omega)
        simp only [List.length_cons]
        omega
      · show off + brokenOff.length ≤ last - 8 + 5
        have hbroken : brokenOff.length = 5 := rfl
        omega

/-- `pname` of an atom. -/
theorem pname_atom {a : ν} (h : Reads heap (some a) t) (hcons : ∀ u v, t ≠ .cons u v) :
    pname charMap heap (some a) = .ok (t.atomText charMap) := by
  have hbuffer : lineBuffer = 1024 := rfl
  have hcopy (s : List UInt8) : (copyName lineBuffer 0 s).1.length < lineBuffer := by
    have := length_copyName lineBuffer 0 s (by omega)
    omega
  unfold pname
  cases h with
  | cons _ _ _ => exact absurd rfl (hcons _ _)
  | number ha | string ha =>
      simp only [convert, ha, convertAtom, Bind.bind, Except.bind]
      exact if_pos (hcopy _)
  | @symbol _ name ha =>
      have hbar := length_copyName lineBuffer 1 name.bytes (by omega)
      simp only [convert, ha, convertAtom, Tree.atomText, Bind.bind, Except.bind]
      by_cases hbars : needsBars charMap name.bytes = true
      · simp only [if_pos hbars]
        refine if_pos ?_
        split_ifs <;> simp <;> omega
      · simp only [if_neg hbars]
        exact if_pos (hcopy _)

/-- Atoms that fit are printed whole. -/
theorem atomText_eq_text (hcons : ∀ u v, t ≠ .cons u v) (hfits : t.Fits charMap) :
    t.atomText charMap = t.text charMap := by
  cases t with
  | cons u v => exact absurd rfl (hcons u v)
  | nil => rfl
  | number x | string x =>
      have hspace : 0 + (Tree.space charMap _) ≤ lineBuffer - 8 := (Nat.zero_add _).trans_le hfits
      rw [Tree.space] at hspace
      rw [Tree.atomText, copyName_ok hspace, Tree.text]
  | symbol name =>
      have hspace : (Tree.symbol name).space charMap ≤ lineBuffer - 8 := hfits
      rw [Tree.space] at hspace
      rw [Tree.atomText, Tree.text, symbolText]
      split_ifs at hspace ⊢ with hbars
      · rw [copyName_ok (by omega)]
        rfl
      · rw [copyName_ok (by omega)]

theorem printed_eq_text (hfits : t.Fits charMap) :
    t.printed charMap = t.text charMap ∧ t.printedTail charMap = t.tailText charMap := by
  induction t with
  | nil => exact ⟨rfl, rfl⟩
  | number x =>
      have hatom : (Tree.number x).atomText charMap = (Tree.number x).text charMap :=
        atomText_eq_text (by simp) hfits
      exact ⟨hatom, congrArg dottedText hatom⟩
  | string s =>
      have hatom : (Tree.string s).atomText charMap = (Tree.string s).text charMap :=
        atomText_eq_text (by simp) hfits
      exact ⟨hatom, congrArg dottedText hatom⟩
  | symbol name =>
      have hatom : (Tree.symbol name).atomText charMap = (Tree.symbol name).text charMap :=
        atomText_eq_text (by simp) hfits
      exact ⟨hatom, congrArg dottedText hatom⟩
  | cons car cdr ihcar ihcdr =>
      rw [Tree.printed, Tree.printedTail, Tree.text, Tree.tailText, (ihcar hfits.1).1,
        (ihcdr hfits.2).2]
      exact ⟨rfl, rfl⟩

/-- What `print_list` and its loop print: neither the stack nor the slow pointer cuts
anything off. -/
theorem printRounds_ok [DecidableEq ν] (h : Reads heap p t) :
    (∀ fuel stack, Cursor heap stack p p → 2 * t.height < fuel →
      printRounds charMap heap fuel stack p = .ok (t.printed charMap)) ∧
    (∀ a u v, p = some a → t = .cons u v → ∀ fuel stack slow toggle, Cursor heap stack slow p →
      2 * t.height ≤ fuel →
      printCells charMap heap fuel stack slow toggle a =
        .ok (u.printed charMap ++ v.printedTail charMap)) := by
  have hatom : ∀ {a : ν} {t : Tree}, Reads heap (some a) t → (∀ u v, t ≠ .cons u v) →
      ∀ fuel stack, 0 < fuel →
      printRounds charMap heap fuel stack (some a) = .ok (t.atomText charMap) := by
    intro a t h hcons fuel stack hfuel
    obtain ⟨fuel, rfl⟩ : ∃ k, fuel = k + 1 := ⟨fuel - 1, by omega⟩
    rw [← pname_atom h hcons]
    cases h with
    | number ha | string ha | symbol ha => simp only [printRounds, ha]
    | cons _ _ _ => exact absurd rfl (hcons _ _)
  induction h with
  | nil =>
      refine ⟨fun fuel stack _ hfuel => ?_, fun a u v ha => by cases ha⟩
      obtain ⟨fuel, rfl⟩ := Nat.exists_eq_add_of_lt hfuel
      rfl
  | number ha =>
      exact ⟨fun fuel stack _ hfuel => hatom (.number ha) (by simp) fuel stack (by omega),
        fun a u v _ ht => by cases ht⟩
  | string ha =>
      exact ⟨fun fuel stack _ hfuel => hatom (.string ha) (by simp) fuel stack (by omega),
        fun a u v _ ht => by cases ht⟩
  | symbol ha =>
      exact ⟨fun fuel stack _ hfuel => hatom (.symbol ha) (by simp) fuel stack (by omega),
        fun a u v _ ht => by cases ht⟩
  | @cons a car cdr t t' ha _ hcdr ihcar ihcdr =>
      have hcells : ∀ fuel stack slow toggle, Cursor heap stack slow (some a) →
          2 * (Tree.cons t t').height ≤ fuel →
          printCells charMap heap fuel stack slow toggle a =
            .ok (t.printed charMap ++ t'.printedTail charMap) := by
        intro fuel stack slow toggle hcursor hfuel
        rw [Tree.height] at hfuel
        obtain ⟨fuel, rfl⟩ : ∃ k, fuel = k + 1 := ⟨fuel - 1, by omega⟩
        obtain ⟨hmem, hslow⟩ := hcursor.uncut ha
        have hcar := ihcar.1 fuel (car :: stack) (hcursor.enter ha) (by omega)
        simp only [printCells, ha, if_neg hmem, if_neg hslow, hcar, Bind.bind, Except.bind]
        obtain ⟨slow', hread, hnext⟩ := hcursor.next ha (!toggle)
        cases hcdr with
        | nil => rfl
        | number hb =>
            simp only [hb, hatom (.number hb) (by simp) fuel stack (by omega)]
            rfl
        | string hb =>
            simp only [hb, hatom (.string hb) (by simp) fuel stack (by omega)]
            rfl
        | symbol hb =>
            simp only [hb, hatom (.symbol hb) (by simp) fuel stack (by omega)]
            rfl
        | cons hb _ _ =>
            have hrest := ihcdr.2 _ _ _ rfl rfl fuel stack slow' (!toggle) hnext (by omega)
            simp only [hb, hread, hrest, Tree.printedTail]
      refine ⟨fun fuel stack hcursor hfuel => ?_, ?_⟩
      · obtain ⟨fuel, rfl⟩ : ∃ k, fuel = k + 1 := ⟨fuel - 1, by omega⟩
        simp only [printRounds, ha, hcells fuel stack _ false hcursor (by omega)]
        rfl
      · rintro _ _ _ hp ht
        cases hp
        cases ht
        exact hcells

/-- **`print_list` prints the tree.** -/
theorem printList_printed [DecidableEq ν] [Fintype ν] (h : Reads heap p t) :
    printList charMap heap p = .ok (t.printed charMap) := by
  have hheight : t.height ≤ Fintype.card ν := by
    simpa using h.height_le List.nodup_nil (by simp)
  have hbound : (Fintype.card ν + 2) * (2 * Fintype.card ν + 5) =
      Fintype.card ν * (2 * Fintype.card ν + 5) + 2 * (2 * Fintype.card ν + 5) := by ring
  exact (printRounds_ok h).1 _ [] (.start h.acyclic) (by omega)

/-- **`print_list` prints the text of the tree**, when its atoms fit. -/
theorem printList_ok [DecidableEq ν] [Fintype ν] (h : Reads heap p t) (hfits : t.Fits charMap) :
    printList charMap heap p = .ok (t.text charMap) := by
  rw [printList_printed h, (printed_eq_text hfits).1]

end Text

end Lush
