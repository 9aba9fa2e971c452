import Lush.Text.Numbers

/-!
# The syntax of decimal numbers

`str_val_float` reads a word in a single loop with four flags.  Each state of the flags
accepts a language; they are found from the last part of a number to the first.  The words
that the loop accepts are the decimal numbers, and those with a sign after the leading
point or with an exponent after no digit (`accepts_start`).
-/

namespace Lush.Text

/-! ## The grammar -/

/-- White space. -/
def Blank (s : List UInt8) : Prop := ∀ c ∈ s, isSpace c = true

/-- A row of digits, maybe none. -/
def Digits (s : List UInt8) : Prop := ∀ c ∈ s, isDigit c = true

/-- `+` or `-`. -/
def IsSign (c : UInt8) : Prop := c = ascii '+' ∨ c = ascii '-'

/-- A sign, or none. -/
inductive OptSign : List UInt8 → Prop
  | none : OptSign []
  | some {c : UInt8} (h : IsSign c) : OptSign [c]

/-- Digits with at most one point among them. -/
inductive Mantissa : List UInt8 → Prop
  | whole {ds : List UInt8} (h : Digits ds) (hne : ds ≠ []) : Mantissa ds
  | point {ds part : List UInt8} (h : Digits ds) (h' : Digits part) (hne : ds ≠ [] ∨ part ≠ []) :
      Mantissa (ds ++ ascii '.' :: part)

/-- The exponent, or none. -/
inductive Exponent : List UInt8 → Prop
  | none : Exponent []
  | some {e : UInt8} {sign ds : List UInt8} (he : e = ascii 'e' ∨ e = ascii 'E')
      (hsign : OptSign sign) (h : Digits ds) (hne : ds ≠ []) : Exponent (e :: (sign ++ ds))

/-- A decimal number. -/
inductive Decimal : List UInt8 → Prop
  | mk {sign m e : List UInt8} (hsign : OptSign sign) (hm : Mantissa m) (he : Exponent e) :
      Decimal (sign ++ m ++ e)

/-- What is taken for a decimal number: a sign may follow the leading point, and no digit
is needed before an exponent. -/
inductive Slip : List UInt8 → Prop
  | sign {c : UInt8} {ds e : List UInt8} (hc : IsSign c) (h : Digits ds) (he : Exponent e)
      (hne : ds ≠ [] ∨ e ≠ []) : Slip (ascii '.' :: c :: (ds ++ e))
  | exponent {sign e : List UInt8} (hsign : OptSign sign) (hne : sign ≠ []) (he : Exponent e)
      (hne' : e ≠ []) : Slip (sign ++ e)
  | point {sign e : List UInt8} (hsign : OptSign sign) (he : Exponent e) (hne : e ≠ []) :
      Slip (sign ++ ascii '.' :: e)

/-- `word` is `s` apart from surrounding white space. -/
inductive Surrounds (word : List UInt8) : List UInt8 → Prop
  | mk {l r : List UInt8} (hl : Blank l) (hr : Blank r) : Surrounds word (l ++ word ++ r)

/-- The prefix of a hexadecimal number. -/
inductive HexPrefix : List UInt8 → Prop
  | mk {l sign t : List UInt8} {x : UInt8} (hl : Blank l) (hsign : OptSign sign)
      (hx : x = ascii 'x' ∨ x = ascii 'X') : HexPrefix (l ++ sign ++ ascii '0' :: x :: t)

/-! ## The loop -/

/-- The loop goes through the whole word, and finds a digit at its end. -/
def Accepts (digits sign point exponent : Bool) (w : List UInt8) : Prop :=
  floatLoop digits sign point exponent w = some ([], true)

variable {d s p e : Bool} {c : UInt8} {w ds t : List UInt8}

theorem accepts_nil : Accepts d s p e [] ↔ d = true := by
  simp [Accepts, floatLoop]

theorem accepts_digit (h : isDigit c = true) : Accepts d s p e (c :: w) ↔ Accepts true s p e w := by
  simp [Accepts, floatLoop, h]

theorem not_digit_sign (h : IsSign c) : isDigit c = false := by
  rcases h with rfl | rfl <;> decide

theorem accepts_sign (h : IsSign c) :
    Accepts d s p e (c :: w) ↔ ¬(d = true ∨ s = true) ∧ Accepts d true p e w := by
  have hdigit := not_digit_sign h
  unfold IsSign at h
  by_cases hds : d = true ∨ s = true
  · simp [Accepts, floatLoop, hdigit, h, hds]
  · simp [Accepts, floatLoop, hdigit, h, hds]

theorem accepts_point :
    Accepts d s p e (ascii '.' :: w) ↔ ¬(p = true ∨ e = true) ∧ Accepts d s true e w := by
  have hdigit : isDigit (ascii '.') = false := by decide
  have hsign : ¬(ascii '.' = ascii '+' ∨ ascii '.' = ascii '-') := by decide
  by_cases hpe : p = true ∨ e = true
  · simp [Accepts, floatLoop, hdigit, hsign, hpe]
  · simp [Accepts, floatLoop, hdigit, hsign, hpe]

theorem accepts_exponent (h : c = ascii 'e' ∨ c = ascii 'E') :
    Accepts d s p e (c :: w) ↔ e = false ∧ Accepts false false p true w := by
  have hdigit : isDigit c = false := by rcases h with rfl | rfl <;> decide
  have hsign : ¬(c = ascii '+' ∨ c = ascii '-') := by rcases h with rfl | rfl <;> decide
  have hpoint : c ≠ ascii '.' := by rcases h with rfl | rfl <;> decide
  cases e <;> simp [Accepts, floatLoop, hdigit, hsign, hpoint, h]

/-- No other character is part of a number. -/
theorem not_accepts (hdigit : isDigit c = false) (hsign : ¬ IsSign c) (hpoint : c ≠ ascii '.')
    (he : ¬(c = ascii 'e' ∨ c = ascii 'E')) : ¬ Accepts d s p e (c :: w) := by
  unfold IsSign at hsign
  simp [Accepts, floatLoop, hdigit, hsign, hpoint, he]

theorem accepts_digits (h : Digits ds) :
    Accepts d s p e (ds ++ w) ↔ Accepts (d || !ds.isEmpty) s p e w := by
  induction ds generalizing d with
  | nil => simp
  | cons c ds ih =>
      rw [List.cons_append, accepts_digit (h c List.mem_cons_self),
        ih fun b hb => h b (List.mem_cons_of_mem c hb)]
      simp

/-- The digits at the start of a word. -/
theorem exists_digits (w : List UInt8) : ∃ ds t, w = ds ++ t ∧ Digits ds ∧
    ∀ c u, t = c :: u → isDigit c = false := by
  refine ⟨w.takeWhile isDigit, w.dropWhile isDigit, List.takeWhile_append_dropWhile.symm,
    fun c hc => List.mem_takeWhile_imp hc, ?_⟩
  intro c u ht
  have hhead := List.head?_dropWhile_not isDigit w
  rw [ht] at hhead
  simpa using hhead

/-- What a word goes on with after its digits. -/
theorem accepts_head (hdigit : isDigit c = false) (h : Accepts d s p e (c :: w)) :
    (IsSign c ∧ ¬(d = true ∨ s = true) ∧ Accepts d true p e w) ∨
      (c = ascii '.' ∧ ¬(p = true ∨ e = true) ∧ Accepts d s true e w) ∨
      ((c = ascii 'e' ∨ c = ascii 'E') ∧ e = false ∧ Accepts false false p true w) := by
  by_cases hsign : IsSign c
  · exact .inl ⟨hsign, (accepts_sign hsign).mp h⟩
  · by_cases hpoint : c = ascii '.'
    · subst hpoint
      exact .inr (.inl ⟨rfl, accepts_point.mp h⟩)
    · by_cases he : c = ascii 'e' ∨ c = ascii 'E'
      · exact .inr (.inr ⟨he, (accepts_exponent he).mp h⟩)
      · exact absurd h (not_accepts hdigit hsign hpoint he)

/-! ## What the states of the flags accept -/

theorem digits_append (h : Digits ds) (h' : Digits t) : Digits (ds ++ t) :=
  fun c hc => (List.mem_append.mp hc).elim (h c) (h' c)

/-- After a digit or a sign of the exponent. -/
theorem accepts_exponent_rest (h : d = true ∨ s = true) :
    Accepts d s p true w ↔ Digits w ∧ (d = true ∨ w ≠ []) := by
  constructor
  · intro hw
    obtain ⟨ds, t, rfl, hds, hhead⟩ := exists_digits w
    rw [accepts_digits hds] at hw
    cases t with
    | nil =>
        rw [List.append_nil]
        refine ⟨hds, ?_⟩
        simpa [accepts_nil] using hw
    | cons c u =>
        rcases accepts_head (hhead c u rfl) hw with ⟨_, hflags, _⟩ | ⟨_, hflags, _⟩ | ⟨_, he, _⟩
        · simp only [Bool.or_eq_true] at hflags
          tauto
        · exact absurd (.inr rfl) hflags
        · cases he
  · rintro ⟨hw, hne⟩
    rw [← List.append_nil w, accepts_digits hw, accepts_nil]
    simpa using hne

/-- After the letter of the exponent. -/
theorem accepts_exponent_start : Accepts false false p true w ↔
    ∃ sign ds, OptSign sign ∧ Digits ds ∧ ds ≠ [] ∧ w = sign ++ ds := by
  constructor
  · intro hw
    obtain ⟨ds, t, rfl, hds, hhead⟩ := exists_digits w
    by_cases hne : ds = []
    · subst hne
      rw [List.nil_append] at hw ⊢
      cases t with
      | nil => exact absurd (accepts_nil.mp hw) Bool.false_ne_true
      | cons c u =>
          rcases accepts_head (hhead c u rfl) hw with ⟨hsign, _, hu⟩ | ⟨_, hflags, _⟩ | ⟨_, he, _⟩
          · rw [accepts_exponent_rest (.inr rfl)] at hu
            exact ⟨[c], u, .some hsign, hu.1, hu.2.resolve_left Bool.false_ne_true, rfl⟩
          · exact absurd (.inr rfl) hflags
          · cases he
    · have hflag : (false || !ds.isEmpty) = true := by simpa using hne
      rw [accepts_digits hds, hflag, accepts_exponent_rest (.inl rfl)] at hw
      exact ⟨[], ds ++ t, .none, digits_append hds hw.1, by simp [hne], rfl⟩
  · rintro ⟨sign, ds, hsign, hds, hne, rfl⟩
    cases hsign with
    | none =>
        rw [List.nil_append, ← List.append_nil ds, accepts_digits hds, accepts_nil]
        simpa using hne
    | some hc =>
        rw [List.singleton_append, accepts_sign hc, accepts_exponent_rest (.inr rfl)]
        simp [hds, hne]

theorem accepts_exponent_iff (hc : c = ascii 'e' ∨ c = ascii 'E') :
    Accepts d s p false (c :: w) ↔ Exponent (c :: w) := by
  rw [accepts_exponent hc, accepts_exponent_start]
  constructor
  · rintro ⟨_, sign, ds, hsign, hds, hne, rfl⟩
    exact .some hc hsign hds hne
  · intro h
    cases h with
    | some _ hsign hds hne => exact ⟨rfl, _, _, hsign, hds, hne, rfl⟩

/-- An exponent after what a flag stands for. -/
theorem accepts_of_exponent (h : Exponent w) (hne : d = true ∨ w ≠ []) : Accepts d s p false w := by
  cases h with
  | none => exact accepts_nil.mpr (hne.resolve_right fun h => h rfl)
  | some hc hsign hds hds' => exact (accepts_exponent_iff hc).mpr (.some hc hsign hds hds')

/-- After the point, with a digit or a sign before it. -/
theorem accepts_point_rest (h : d = true ∨ s = true) : Accepts d s true false w ↔
    ∃ ds e, Digits ds ∧ Exponent e ∧ (d = true ∨ ds ≠ [] ∨ e ≠ []) ∧ w = ds ++ e := by
  constructor
  · intro hw
    obtain ⟨ds, t, rfl, hds, hhead⟩ := exists_digits w
    rw [accepts_digits hds] at hw
    cases t with
    | nil =>
        refine ⟨ds, [], hds, .none, ?_, rfl⟩
        simpa [accepts_nil] using hw
    | cons c u =>
        rcases accepts_head (hhead c u rfl) hw with ⟨_, hflags, _⟩ | ⟨_, hflags, _⟩ | ⟨hc, _⟩
        · simp only [Bool.or_eq_true] at hflags
          tauto
        · exact absurd (.inl rfl) hflags
        · exact ⟨ds, c :: u, hds, (accepts_exponent_iff hc).mp hw, .inr (.inr (by simp)), rfl⟩
  · rintro ⟨ds, e, hds, he, hne, rfl⟩
    rw [accepts_digits hds]
    apply accepts_of_exponent he
    simpa [or_assoc] using hne

/-- After a point at the start. -/
theorem accepts_point_start : Accepts false false true false w ↔ ∃ sign ds e,
    OptSign sign ∧ Digits ds ∧ Exponent e ∧ (ds ≠ [] ∨ e ≠ []) ∧ w = sign ++ (ds ++ e) := by
  constructor
  · intro hw
    obtain ⟨ds, t, rfl, hds, hhead⟩ := exists_digits w
    by_cases hne : ds = []
    · subst hne
      rw [List.nil_append] at hw ⊢
      cases t with
      | nil => exact absurd (accepts_nil.mp hw) Bool.false_ne_true
      | cons c u =>
          rcases accepts_head (hhead c u rfl) hw with ⟨hsign, _, hu⟩ | ⟨_, hflags, _⟩ | ⟨hc, _⟩
          · rw [accepts_point_rest (.inr rfl)] at hu
            obtain ⟨ds, e, hds, he, hne, rfl⟩ := hu
            exact ⟨[c], ds, e, .some hsign, hds, he, hne.resolve_left Bool.false_ne_true, rfl⟩
          · exact absurd (.inl rfl) hflags
          · exact ⟨[], [], c :: u, .none, hds, (accepts_exponent_iff hc).mp hw, .inr (by simp), rfl⟩
    · have hflag : (false || !ds.isEmpty) = true := by simpa using hne
      rw [accepts_digits hds, hflag, accepts_point_rest (.inl rfl)] at hw
      obtain ⟨ds', e, hds', he, _, rfl⟩ := hw
      refine ⟨[], ds ++ ds', e, .none, digits_append hds hds', he, .inl (by simp [hne]), ?_⟩
      simp
  · rintro ⟨sign, ds, e, hsign, hds, he, hne, rfl⟩
    cases hsign with
    | none =>
        rw [List.nil_append, accepts_digits hds]
        apply accepts_of_exponent he
        simpa using hne
    | some hc =>
        rw [List.singleton_append, accepts_sign hc, accepts_point_rest (.inr rfl)]
        exact ⟨by simp, ds, e, hds, he, .inr hne, rfl⟩

/-- What may follow the first digits of a number. -/
inductive Fraction : List UInt8 → List UInt8 → List UInt8 → Prop
  | none {e : List UInt8} (he : Exponent e) : Fraction [] e e
  | some {part e : List UInt8} (h : Digits part) (he : Exponent e) :
      Fraction part e (ascii '.' :: (part ++ e))

/-- Before the point, with a digit or a sign at the start. -/
theorem accepts_whole (h : d = true ∨ s = true) : Accepts d s false false w ↔
    ∃ ds part e t, Digits ds ∧ Fraction part e t ∧
      (d = true ∨ ds ≠ [] ∨ part ≠ [] ∨ e ≠ []) ∧ w = ds ++ t := by
  constructor
  · intro hw
    obtain ⟨ds, t, rfl, hds, hhead⟩ := exists_digits w
    rw [accepts_digits hds] at hw
    cases t with
    | nil =>
        refine ⟨ds, [], [], [], hds, .none .none, ?_, rfl⟩
        simpa [accepts_nil] using hw
    | cons c u =>
        rcases accepts_head (hhead c u rfl) hw with ⟨_, hflags, _⟩ | ⟨rfl, _, hu⟩ | ⟨hc, _⟩
        · simp only [Bool.or_eq_true] at hflags
          tauto
        · have hflags : (d || !ds.isEmpty) = true ∨ s = true := by
            rw [Bool.or_eq_true]
            tauto
          rw [accepts_point_rest hflags] at hu
          obtain ⟨part, e, hpart, he, hne, rfl⟩ := hu
          refine ⟨ds, part, e, _, hds, .some hpart he, ?_, rfl⟩
          simpa [or_assoc] using hne
        · exact ⟨ds, [], c :: u, c :: u, hds, .none ((accepts_exponent_iff hc).mp hw),
            .inr (.inr (.inr (by simp))), rfl⟩
  · rintro ⟨ds, part, e, t, hds, ht, hne, rfl⟩
    rw [accepts_digits hds]
    cases ht with
    | none he =>
        apply accepts_of_exponent he
        simpa [or_assoc] using hne
    | some hpart he =>
        have hflags : (d || !ds.isEmpty) = true ∨ s = true := by
          rw [Bool.or_eq_true]
          tauto
        rw [accepts_point, accepts_point_rest hflags]
        refine ⟨by simp, part, e, hpart, he, ?_, rfl⟩
        simpa [or_assoc] using hne

/-- Digits before a fraction, one at least somewhere, are a number. -/
theorem decimal_of_fraction {sign part e : List UInt8} (hsign : OptSign sign) (hds : Digits ds)
    (ht : Fraction part e t) (hne : ds ≠ [] ∨ part ≠ []) : Decimal (sign ++ (ds ++ t)) := by
  cases ht with
  | none he =>
      rw [← List.append_assoc]
      exact .mk hsign (.whole hds (hne.resolve_right fun h => h rfl)) he
  | some hpart he =>
      have hword := Decimal.mk hsign (.point hds hpart hne) he
      simpa using hword

theorem Mantissa.fraction {m e : List UInt8} (hm : Mantissa m) (he : Exponent e) :
    ∃ ds part t, Digits ds ∧ Fraction part e t ∧ (ds ≠ [] ∨ part ≠ []) ∧ m ++ e = ds ++ t := by
  cases hm with
  | whole hds hne => exact ⟨m, [], e, hds, .none he, .inl hne, rfl⟩
  | point hds hpart hne => exact ⟨_, _, _, hds, .some hpart he, hne, by simp⟩

/-- **The words that the loop accepts.** -/
theorem accepts_start (hfirst : ∀ c u, w = c :: u → ¬(c = ascii 'e' ∨ c = ascii 'E')) :
    Accepts false false false false w ↔ Decimal w ∨ Slip w := by
  constructor
  · intro hw
    obtain ⟨ds, t, rfl, hds, hhead⟩ := exists_digits w
    by_cases hne : ds = []
    · subst hne
      rw [List.nil_append] at hw hfirst ⊢
      cases t with
      | nil => exact absurd (accepts_nil.mp hw) Bool.false_ne_true
      | cons c u =>
          rcases accepts_head (hhead c u rfl) hw with ⟨hsign, _, hu⟩ | ⟨rfl, _, hu⟩ | ⟨hc, _⟩
          · rw [accepts_whole (.inr rfl)] at hu
            obtain ⟨ds, part, e, t, hds, ht, hne, rfl⟩ := hu
            by_cases hdigit : ds ≠ [] ∨ part ≠ []
            · exact .inl (decimal_of_fraction (.some hsign) hds ht hdigit)
            · push Not at hdigit
              obtain ⟨rfl, rfl⟩ := hdigit
              have he : e ≠ [] := by simpa using hne
              cases ht with
              | none hexp => exact .inr (.exponent (.some hsign) (by simp) hexp he)
              | some _ hexp => exact .inr (.point (.some hsign) hexp he)
          · rw [accepts_point_start] at hu
            obtain ⟨sign, ds, e, hsign, hds, he, hne, rfl⟩ := hu
            cases hsign with
            | some hc =>
                rw [List.singleton_append]
                exact .inr (.sign hc hds he hne)
            | none =>
                rw [List.nil_append]
                by_cases hdigit : ds = []
                · subst hdigit
                  exact .inr (.point .none he (hne.resolve_left fun h => h rfl))
                · have hnone : Digits [] := nofun
                  exact .inl (decimal_of_fraction .none hnone (.some hds he) (.inr hdigit))
          · exact absurd hc (hfirst c u rfl)
    · have hflag : (false || !ds.isEmpty) = true := by simpa using hne
      rw [accepts_digits hds, hflag, accepts_whole (.inl rfl)] at hw
      obtain ⟨ds', part, e, t, hds', ht, _, rfl⟩ := hw
      have hword := decimal_of_fraction .none (digits_append hds hds') ht (.inl (by simp [hne]))
      left
      simpa using hword
  · rintro (hw | hw)
    · obtain ⟨hsign, hm, he⟩ := hw
      obtain ⟨ds, part, t, hds, ht, hne, heq⟩ := hm.fraction he
      rw [List.append_assoc, heq]
      cases hsign with
      | some hc =>
          rw [List.singleton_append, accepts_sign hc, accepts_whole (.inr rfl)]
          exact ⟨by simp, ds, part, _, t, hds, ht, by tauto, rfl⟩
      | none =>
          rw [List.nil_append, accepts_digits hds]
          by_cases hdigit : ds = []
          · subst hdigit
            have hpart := hne.resolve_left fun h => h rfl
            cases ht with
            | none _ => exact absurd rfl hpart
            | some hds he =>
                refine accepts_point.mpr ⟨by simp, accepts_point_start.mpr ?_⟩
                exact ⟨[], part, _, .none, hds, he, .inl hpart, rfl⟩
          · have hflag : (false || !ds.isEmpty) = true := by simpa using hdigit
            rw [hflag, accepts_whole (.inl rfl)]
            exact ⟨[], part, _, t, nofun, ht, .inl rfl, rfl⟩
    · cases hw with
      | sign hc hds he hne =>
          refine accepts_point.mpr ⟨by simp, accepts_point_start.mpr ?_⟩
          exact ⟨[_], _, _, .some hc, hds, he, hne, rfl⟩
      | exponent hsign hne he hne' =>
          cases hsign with
          | none => exact absurd rfl hne
          | some hc =>
              rw [List.singleton_append, accepts_sign hc, accepts_whole (.inr rfl)]
              exact ⟨by simp, [], [], _, _, nofun, .none he, .inr (.inr (.inr hne')), rfl⟩
      | point hsign he hne =>
          cases hsign with
          | none =>
              refine accepts_point.mpr ⟨by simp, accepts_point_start.mpr ?_⟩
              exact ⟨[], [], _, .none, nofun, he, .inr hne, rfl⟩
          | some hc =>
              rw [List.singleton_append, accepts_sign hc, accepts_whole (.inr rfl)]
              exact ⟨by simp, [], [], _, _, nofun, .some nofun he, .inr (.inr (.inr hne)), rfl⟩

/-! ## The word and the white space -/

theorem not_space_of_digit (h : isDigit c = true) : isSpace c = false := by
  have hall : ∀ c, isDigit c = true → isSpace c = false := by
    refine forall_byte ?_
    decide +kernel
  exact hall c h

theorem not_space_of_letter (h : IsSign c ∨ c = ascii '.' ∨ c = ascii 'e' ∨ c = ascii 'E') :
    isSpace c = false := by
  rcases h with (rfl | rfl) | rfl | rfl | rfl <;> decide

/-- The loop stops at a space. -/
theorem floatLoop_space (h : isSpace c = true) : floatLoop d s p e (c :: w) = some (c :: w, d) := by
  have hdigit : isDigit c = false := by
    by_contra hdigit
    rw [not_space_of_digit (by simpa using hdigit)] at h
    cases h
  have hother : ∀ b, isSpace b = true → ¬(b = ascii '+' ∨ b = ascii '-') ∧ b ≠ ascii '.' ∧
      ¬(b = ascii 'e' ∨ b = ascii 'E') := by
    refine forall_byte ?_
    decide +kernel
  obtain ⟨hsign, hpoint, he⟩ := hother c h
  simp [floatLoop, hdigit, hsign, hpoint, he]

/-- One character: the loop goes on, fails or stops. -/
theorem floatLoop_step (d s p e : Bool) (c : UInt8) :
    (isSpace c = false ∧ ∃ d' s' p' e', ∀ v, floatLoop d s p e (c :: v) = floatLoop d' s' p' e' v) ∨
      (∀ v, floatLoop d s p e (c :: v) = none) ∨
      ∀ v, floatLoop d s p e (c :: v) = some (c :: v, d) := by
  by_cases hdigit : isDigit c = true
  · exact .inl ⟨not_space_of_digit hdigit, true, s, p, e, fun v => by simp only [floatLoop, if_pos hdigit]⟩
  · by_cases hsign : c = ascii '+' ∨ c = ascii '-'
    · by_cases hds : d = true ∨ s = true
      · exact .inr (.inl fun v => by simp only [floatLoop, if_neg hdigit, if_pos hsign, if_pos hds])
      · exact .inl ⟨not_space_of_letter (.inl hsign), d, true, p, e,
          fun v => by simp only [floatLoop, if_neg hdigit, if_pos hsign, if_neg hds]⟩
    · by_cases hpoint : c = ascii '.'
      · by_cases hpe : p = true ∨ e = true
        · exact .inr (.inl fun v => by
            simp only [floatLoop, if_neg hdigit, if_neg hsign, if_pos hpoint, if_pos hpe])
        · exact .inl ⟨not_space_of_letter (.inr (.inl hpoint)), d, s, true, e, fun v => by
            simp only [floatLoop, if_neg hdigit, if_neg hsign, if_pos hpoint, if_neg hpe]⟩
      · by_cases hexp : c = ascii 'e' ∨ c = ascii 'E'
        · cases e with
          | true => exact .inr (.inl fun v => by
              simp only [floatLoop, if_neg hdigit, if_neg hsign, if_neg hpoint, if_pos hexp, if_true])
          | false => exact .inl ⟨not_space_of_letter (.inr (.inr hexp)), false, false, p, true, fun v => by
              simp [floatLoop, hdigit, hsign, hpoint, hexp]⟩
        · exact .inr (.inr fun v => by
            simp only [floatLoop, if_neg hdigit, if_neg hsign, if_neg hpoint, if_neg hexp])

/-- What is left is the end of the word. -/
theorem floatLoop_split {r : List UInt8} {b : Bool} (h : floatLoop d s p e w = some (r, b)) :
    ∃ u, w = u ++ r ∧ floatLoop d s p e u = some ([], b) ∧ ∀ c ∈ u, isSpace c = false := by
  induction w generalizing d s p e with
  | nil =>
      cases h
      exact ⟨[], rfl, rfl, nofun⟩
  | cons c w ih =>
      rcases floatLoop_step d s p e c with ⟨hc, d', s', p', e', hstep⟩ | hstep | hstep
      · rw [hstep] at h
        obtain ⟨u, rfl, hu, hall⟩ := ih h
        refine ⟨c :: u, rfl, (hstep u).trans hu, ?_⟩
        simpa [hc] using hall
      · cases (hstep w).symm.trans h
      · cases (hstep w).symm.trans h
        exact ⟨[], rfl, rfl, nofun⟩

/-- The loop goes through a word to the space after it. -/
theorem floatLoop_append {r : List UInt8} {b : Bool} (h : floatLoop d s p e w = some ([], b))
    (hr : Blank r) : floatLoop d s p e (w ++ r) = some (r, b) := by
  induction w generalizing d s p e with
  | nil =>
      cases h
      cases r with
      | nil => rfl
      | cons c r => exact floatLoop_space (hr c List.mem_cons_self)
  | cons c w ih =>
      rcases floatLoop_step d s p e c with ⟨_, d', s', p', e', hstep⟩ | hstep | hstep
      · rw [List.cons_append, hstep]
        exact ih ((hstep w).symm.trans h)
      · cases (hstep w).symm.trans h
      · cases (hstep w).symm.trans h

/-! ## Numbers and slips -/

theorem Mantissa.head {m : List UInt8} (h : Mantissa m) : ∃ c u, m = c :: u ∧
    (isDigit c = true ∨ (c = ascii '.' ∧ ∃ b v, u = b :: v ∧ isDigit b = true)) := by
  cases h with
  | whole h hne =>
      obtain ⟨c, u, rfl⟩ := List.exists_cons_of_ne_nil hne
      exact ⟨c, u, rfl, .inl (h c List.mem_cons_self)⟩
  | @point ds part h h' hne =>
      cases ds with
      | cons c ds => exact ⟨c, _, rfl, .inl (h c List.mem_cons_self)⟩
      | nil =>
          obtain ⟨b, v, rfl⟩ := List.exists_cons_of_ne_nil (hne.resolve_left fun h => h rfl)
          exact ⟨_, _, rfl, .inr ⟨rfl, b, v, rfl, h' b List.mem_cons_self⟩⟩

/-- A character that is neither a digit nor a point. -/
theorem Mantissa.not_cons {m : List UInt8} (h : Mantissa m) (hdigit : isDigit c = false)
    (hpoint : c ≠ ascii '.') : m ++ t ≠ c :: w := by
  obtain ⟨b, u, rfl, hb⟩ := h.head
  intro heq
  cases heq
  rcases hb with hb | ⟨hb, _⟩
  · rw [hdigit] at hb
    cases hb
  · exact hpoint hb

/-- A point that no digit follows. -/
theorem Mantissa.not_point {m : List UInt8} (h : Mantissa m) (hdigit : isDigit c = false) :
    m ++ t ≠ ascii '.' :: c :: w := by
  obtain ⟨b, u, rfl, hb⟩ := h.head
  intro heq
  obtain ⟨rfl, heq⟩ := List.cons.inj heq
  rcases hb with hb | ⟨_, b, v, rfl, hb⟩
  · cases hb
  · cases heq
    rw [hdigit] at hb
    cases hb

theorem Exponent.letter {e : List UInt8} (h : Exponent e) (hne : e ≠ []) :
    ∃ c u, e = c :: u ∧ isDigit c = false ∧ c ≠ ascii '.' ∧ ¬ IsSign c := by
  cases h with
  | none => exact absurd rfl hne
  | some hc hsign hds hne' =>
      refine ⟨_, _, rfl, ?_⟩
      rcases hc with rfl | rfl <;> exact ⟨by decide, by decide, by unfold IsSign; decide⟩

theorem IsSign.ne_point (h : IsSign c) : c ≠ ascii '.' := by
  rcases h with rfl | rfl <;> decide

/-- After its sign, a number is neither a sign nor an exponent. -/
theorem Decimal.sign_split (h : Decimal (c :: w)) :
    (∃ m e, Mantissa m ∧ m ++ e = c :: w) ∨ (IsSign c ∧ ∃ m e, Mantissa m ∧ m ++ e = w) := by
  generalize hw : c :: w = word at h
  cases h with
  | @mk sign m e hsign hm he =>
      cases hsign with
      | none => exact .inl ⟨m, e, hm, rfl⟩
      | some hc =>
          rw [List.append_assoc, List.singleton_append] at hw
          cases hw
          exact .inr ⟨hc, m, e, hm, rfl⟩

theorem Slip.not_decimal (h : Slip w) : ¬ Decimal w := by
  intro hw
  cases h with
  | sign hc hds he hne =>
      rcases hw.sign_split with ⟨m, e, hm, heq⟩ | ⟨hpoint, _⟩
      · exact hm.not_point (not_digit_sign hc) heq
      · exact hpoint.ne_point rfl
  | exponent hsign hne he hne' =>
      obtain ⟨b, u, rfl, hdigit, hpoint, _⟩ := he.letter hne'
      cases hsign with
      | none => exact hne rfl
      | some hc =>
          rcases hw.sign_split with ⟨m, e, hm, heq⟩ | ⟨_, m, e, hm, heq⟩
          · exact hm.not_cons (not_digit_sign hc) hc.ne_point heq
          · exact hm.not_cons hdigit hpoint heq
  | point hsign he hne =>
      obtain ⟨b, u, rfl, hdigit, _⟩ := he.letter hne
      cases hsign with
      | none =>
          rcases hw.sign_split with ⟨m, e, hm, heq⟩ | ⟨hpoint, _⟩
          · exact hm.not_point hdigit heq
          · exact hpoint.ne_point rfl
      | some hc =>
          rcases hw.sign_split with ⟨m, e, hm, heq⟩ | ⟨_, m, e, hm, heq⟩
          · exact hm.not_cons (not_digit_sign hc) hc.ne_point heq
          · exact hm.not_point hdigit heq

/-! ## Words in a string -/

/-- The loop is entered with a digit, a sign or the point. -/
theorem first_of_accepted (h : Decimal w ∨ Slip w) : ∃ c u, w = c :: u ∧
    (isDigit c = true ∨ c = ascii '+' ∨ c = ascii '-' ∨ c = ascii '.') := by
  rcases h with ⟨hsign, hm, he⟩ | hw
  · cases hsign with
    | some hc => exact ⟨_, _, rfl, hc.elim (fun h => .inr (.inl h)) fun h => .inr (.inr (.inl h))⟩
    | none =>
        obtain ⟨c, u, rfl, hc⟩ := hm.head
        exact ⟨c, _, rfl, hc.imp_right fun h => .inr (.inr h.1)⟩
  · have hsome : ∀ {sign t : List UInt8}, OptSign sign → sign ≠ [] → ∃ c u, sign ++ t = c :: u ∧
        (isDigit c = true ∨ c = ascii '+' ∨ c = ascii '-' ∨ c = ascii '.') := by
      intro sign t hsign hne
      cases hsign with
      | none => exact absurd rfl hne
      | some hc => exact ⟨_, _, rfl, hc.elim (fun h => .inr (.inl h)) fun h => .inr (.inr (.inl h))⟩
    cases hw with
    | sign hc hds he hne => exact ⟨_, _, rfl, .inr (.inr (.inr rfl))⟩
    | exponent hsign hne he hne' => exact hsome hsign hne
    | @point sign e hsign he hne =>
        by_cases hnil : sign = []
        · subst hnil
          exact ⟨_, _, rfl, .inr (.inr (.inr rfl))⟩
        · exact hsome hsign hnil

/-- White space before a character that is none is skipped. -/
theorem dropWhile_blank {l : List UInt8} (hl : Blank l) (hc : isSpace c = false) :
    (l ++ c :: t).dropWhile isSpace = c :: t := by
  rw [List.dropWhile_append_of_pos hl]
  simp [hc]

theorem first_facts (h : isDigit c = true ∨ c = ascii '+' ∨ c = ascii '-' ∨ c = ascii '.') :
    isSpace c = false ∧ ¬(c = ascii 'e' ∨ c = ascii 'E') := by
  have hall : ∀ c, (isDigit c = true ∨ c = ascii '+' ∨ c = ascii '-' ∨ c = ascii '.') →
      isSpace c = false ∧ ¬(c = ascii 'e' ∨ c = ascii 'E') := by
    refine forall_byte ?_
    decide +kernel
  exact hall c h

/-- **What `str_val_float` reads.** -/
theorem strValFloat_isSome (s : List UInt8) :
    (strValFloat s).isSome ↔ ∃ w, Surrounds w s ∧ (Decimal w ∨ Slip w) := by
  constructor
  · intro h
    have hs : s = s.takeWhile isSpace ++ s.dropWhile isSpace := List.takeWhile_append_dropWhile.symm
    unfold strValFloat at h
    cases hdrop : s.dropWhile isSpace with
    | nil => simp [hdrop] at h
    | cons c t =>
        rw [hdrop] at h hs
        simp only at h
        split_ifs at h with hc
        · cases hloop : floatLoop false false false false (c :: t) with
          | none => simp [hloop] at h
          | some result =>
              obtain ⟨r, digits⟩ := result
              simp only [hloop] at h
              split_ifs at h with hend
              · obtain ⟨hblank, rfl⟩ := hend
                obtain ⟨u, hu, haccepts, _⟩ := floatLoop_split hloop
                have hr : Blank r := by
                  intro b hb
                  simpa using List.dropWhile_eq_nil_iff.mp hblank b hb
                have hword : Decimal u ∨ Slip u := by
                  refine (accepts_start ?_).mp haccepts
                  rintro b v rfl
                  obtain ⟨rfl, -⟩ := List.cons.inj hu
                  exact (first_facts hc).2
                rw [hs, hu, ← List.append_assoc]
                exact ⟨u, .mk (fun b hb => List.mem_takeWhile_imp hb) hr, hword⟩
              · cases h
        · cases h
  · rintro ⟨w, ⟨hl, hr⟩, hw⟩
    obtain ⟨c, u, rfl, hc⟩ := first_of_accepted hw
    obtain ⟨hspace, hletter⟩ := first_facts hc
    have haccepts : Accepts false false false false (c :: u) := by
      refine (accepts_start ?_).mpr hw
      rintro b v hbv
      obtain ⟨rfl, -⟩ := List.cons.inj hbv
      exact hletter
    have hloop := floatLoop_append haccepts hr
    unfold strValFloat
    rw [List.append_assoc, List.cons_append, dropWhile_blank hl hspace]
    rw [List.cons_append] at hloop
    have hblank : List.dropWhile isSpace _ = [] := List.dropWhile_eq_nil_iff.mpr hr
    simp [hc, hloop, hblank]

/-- A letter of a number. -/
theorem not_space_of_mem (h : Decimal w ∨ Slip w) : ∀ c ∈ w, isSpace c = false := by
  have haccepts : Accepts false false false false w := by
    refine (accepts_start ?_).mpr h
    rintro b v rfl
    obtain ⟨c, u, hcu, hc⟩ := first_of_accepted h
    obtain ⟨rfl, -⟩ := List.cons.inj hcu
    exact (first_facts hc).2
  obtain ⟨u, hu, _, hall⟩ := floatLoop_split haccepts
  rw [List.append_nil] at hu
  rwa [hu]

theorem Surrounds.eq_word {s : List UInt8} (h : Surrounds w s) (hw : Decimal w ∨ Slip w) :
    (s.dropWhile isSpace).takeWhile (fun c => !isSpace c) = w := by
  have hall := not_space_of_mem hw
  obtain ⟨hl, hr⟩ := h
  obtain ⟨c, u, rfl, hc⟩ := first_of_accepted hw
  rw [List.append_assoc, List.cons_append, dropWhile_blank hl (first_facts hc).1,
    ← List.cons_append, List.takeWhile_append_of_pos (by simpa using hall)]
  refine List.append_right_eq_self.mpr ?_
  rw [List.takeWhile_eq_nil_iff]
  intro hpos
  have hfirst := hr _ (List.getElem_mem hpos)
  simpa using hfirst

/-- A string has one word only. -/
theorem Surrounds.unique {s u : List UInt8} (h : Surrounds w s) (h' : Surrounds u s)
    (hw : Decimal w ∨ Slip w) (hu : Decimal u ∨ Slip u) : w = u :=
  (h.eq_word hw).symm.trans (h'.eq_word hu)

/-- `str_val` reads the decimal numbers, and no other word without the prefix `0x`. -/
structure ReadsNumbers (s : List UInt8) : Prop where
  decimal : (strValFloat s).isSome ↔ ∃ w, Surrounds w s ∧ Decimal w
  other : ¬ HexPrefix s → ¬ (∃ w, Surrounds w s ∧ Decimal w) → strVal s = none

theorem hexPrefix_of_strValHex {s : List UInt8} (h : strValHex s ≠ none) : HexPrefix s := by
  have hs : s = s.takeWhile isSpace ++ s.dropWhile isSpace := List.takeWhile_append_dropWhile.symm
  have hl : Blank (s.takeWhile isSpace) := fun b hb => List.mem_takeWhile_imp hb
  -- what is after the sign
  have hcore : ∀ sign t, OptSign sign → s.dropWhile isSpace = sign ++ t →
      (∃ x u, t = ascii '0' :: x :: u ∧ (x = ascii 'x' ∨ x = ascii 'X')) → HexPrefix s := by
    rintro sign t hsign hdrop ⟨x, u, rfl, hx⟩
    rw [hs, hdrop, ← List.append_assoc]
    exact .mk hl hsign hx
  obtain ⟨sign, t, hsign, hdrop, htail⟩ : ∃ sign t, OptSign sign ∧ s.dropWhile isSpace = sign ++ t ∧
      (if (s.dropWhile isSpace).head? = some (ascii '-') ∨
        (s.dropWhile isSpace).head? = some (ascii '+') then (s.dropWhile isSpace).tail
      else s.dropWhile isSpace) = t := by
    by_cases hsign : (s.dropWhile isSpace).head? = some (ascii '-') ∨
        (s.dropWhile isSpace).head? = some (ascii '+')
    · rw [if_pos hsign]
      cases hdrop : s.dropWhile isSpace with
      | nil => simp [hdrop] at hsign
      | cons c t =>
          rw [hdrop, List.head?_cons, Option.some_inj, Option.some_inj] at hsign
          exact ⟨[c], t, .some hsign.symm, rfl, rfl⟩
    · rw [if_neg hsign]
      exact ⟨[], _, .none, rfl, rfl⟩
  refine hcore sign t hsign hdrop ?_
  unfold strValHex at h
  simp only [htail] at h
  rcases t with _ | ⟨c, _ | ⟨d, _ | ⟨e, u⟩⟩⟩
  · exact absurd rfl h
  · exact absurd rfl h
  · exact absurd rfl h
  · simp only at h
    by_cases hhex : c = ascii '0' ∧ (d = ascii 'x' ∨ d = ascii 'X')
    · exact ⟨d, e :: u, by rw [hhex.1], hhex.2⟩
    · rw [if_neg hhex] at h
      exact absurd rfl h

/-- **The syntax of decimal numbers**: `str_val` reads them, and it reads no other word
apart from the slips. -/
theorem reads_numbers_iff (s : CString) :
    ReadsNumbers s.bytes ↔ ¬ ∃ w, Surrounds w s.bytes ∧ Slip w := by
  constructor
  · rintro ⟨hdecimal, _⟩ ⟨w, hw, hslip⟩
    obtain ⟨u, hu, hdec⟩ := hdecimal.mp ((strValFloat_isSome _).mpr ⟨w, hw, .inr hslip⟩)
    cases hw.unique hu (.inr hslip) (.inl hdec)
    exact hslip.not_decimal hdec
  · intro hslip
    have hdecimal : (strValFloat s.bytes).isSome ↔ ∃ w, Surrounds w s.bytes ∧ Decimal w := by
      rw [strValFloat_isSome]
      constructor
      · rintro ⟨w, hw, hdec | hs⟩
        · exact ⟨w, hw, hdec⟩
        · exact absurd ⟨w, hw, hs⟩ hslip
      · rintro ⟨w, hw, hdec⟩
        exact ⟨w, hw, .inl hdec⟩
    refine ⟨hdecimal, ?_⟩
    intro hhex hnot
    have hnone : strValHex s.bytes = none := by
      by_contra h
      exact hhex (hexPrefix_of_strValHex h)
    have hfloat : strValFloat s.bytes = none := by
      by_contra h
      exact hnot (hdecimal.mp (Option.isSome_iff_ne_none.mpr h))
    rw [strVal, hnone, hfloat]
    rfl

/-- A sign after the leading point. -/
def pointSign : CString := ⟨[46, 45, 53], by decide⟩

/-- `.-5` is read as a number, and it is none. -/
theorem not_reads_pointSign : ¬ ReadsNumbers pointSign.bytes := by
  rintro ⟨hdecimal, _⟩
  have hslip : Slip pointSign.bytes := .sign (c := 45) (.inr rfl)
    (fun c hc => by rw [List.mem_singleton.mp hc]; decide) .none (.inl (List.cons_ne_nil 53 []))
  have hword : Surrounds pointSign.bytes pointSign.bytes := .mk (l := []) (r := []) nofun nofun
  obtain ⟨u, hu, hdec⟩ := hdecimal.mp ((strValFloat_isSome _).mpr ⟨_, hword, .inr hslip⟩)
  cases hword.unique hu (.inr hslip) (.inl hdec)
  exact hslip.not_decimal hdec

end Lush.Text
