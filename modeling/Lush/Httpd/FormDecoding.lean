import Lush.Httpd.Form
import Lush.Ints

/-!
# What forms are decoded to

An escape is read by the number reader, which reads two hexadecimal digits and nothing else, so
the decoder fails at the other escapes (`httpdUrlDecode_iff`, `exists_decode_iff`).  A form is read as
the list that was written (`parseForm_formText`).  The lookup of a name finds the text behind the
first `name=`, wherever it stands; so it gives the first value of the name exactly when that text
and the first value are the same, or there is neither (`agrees_iff`).
-/

namespace Lush.Httpd

open Text (ascii strVal strValHex strValFloat hexLoop ofInt)
open Json (hexDigit)
open Binary64

/-! ## Escapes -/

theorem hexDigit_lt {c : UInt8} {d : ℕ} (h : hexDigit c = some d) : d < 16 := by
  unfold hexDigit at h
  simp only [UInt8.le_iff_toNat_le] at h
  split_ifs at h with h₁ h₂ h₃
  all_goals
    obtain rfl := Option.some.inj h
    simp only [UInt8.reduceToNat] at *
    omega

/-- A round of the digit loop. -/
theorem hexLoop_cons {x : BitVec 32} (hx : x &&& 0xf0000000#32 = 0) (c : UInt8) (s : List UInt8) :
    hexLoop x (c :: s) = (hexDigit c).bind fun d => hexLoop (x <<< 4 + BitVec.ofNat 32 d) s := by
  have hlower : (97 ≤ c ∧ c ≤ 102) → ¬(65 ≤ c ∧ c ≤ 70) := by
    simp only [UInt8.le_iff_toNat_le, UInt8.reduceToNat]
    omega
  rw [hexLoop, if_neg (not_not.mpr hx), hexDigit]
  by_cases h₁ : 48 ≤ c ∧ c ≤ 57
  · rw [if_pos h₁, if_pos h₁, Option.bind_some]
  · rw [if_neg h₁, if_neg h₁]
    by_cases h₂ : 97 ≤ c ∧ c ≤ 102
    · rw [if_pos h₂, if_neg (hlower h₂), if_pos h₂, Option.bind_some]
    · rw [if_neg h₂, if_neg h₂]
      by_cases h₃ : 65 ≤ c ∧ c ≤ 70
      · rw [if_pos h₃, if_pos h₃, Option.bind_some]
      · rw [if_neg h₃, if_neg h₃, Option.bind_none]

theorem hexLoop_two (a b : UInt8) : hexLoop 0 [a, b] =
    (hexDigit a).bind fun i => (hexDigit b).map fun j => BitVec.ofNat 32 (16 * i + j) := by
  have hzero : (0 : BitVec 32) &&& 0xf0000000#32 = 0 := by decide
  have hsmall : ∀ i : Fin 16, (0 : BitVec 32) <<< 4 + BitVec.ofNat 32 i.val &&& 0xf0000000#32 = 0 := by
    decide
  have hsum : ∀ i j : Fin 16, ((0 : BitVec 32) <<< 4 + BitVec.ofNat 32 i.val) <<< 4 +
      BitVec.ofNat 32 j.val = BitVec.ofNat 32 (16 * i.val + j.val) := by
    decide
  rw [hexLoop_cons hzero]
  cases ha : hexDigit a with
  | none => rfl
  | some i =>
      have hi := hexDigit_lt ha
      rw [Option.bind_some, Option.bind_some, hexLoop_cons (hsmall ⟨i, hi⟩)]
      cases hb : hexDigit b with
      | none => rfl
      | some j =>
          rw [Option.bind_some, hsum ⟨i, hi⟩ ⟨j, hexDigit_lt hb⟩, hexLoop]
          rfl

/-- What the number reader makes of two characters after `0x`. -/
theorem strVal_hex (a b : UInt8) : strVal [ascii '0', ascii 'x', a, b] =
    (hexDigit a).bind fun i => (hexDigit b).map fun j => ofInt (16 * i + j : ℕ) := by
  have hfloat : strValFloat [ascii '0', ascii 'x', a, b] = none := by
    have hloop : Text.floatLoop false false false false [ascii '0', ascii 'x', a, b] =
        some ([ascii 'x', a, b], true) := rfl
    have hspace : [ascii 'x', a, b].dropWhile Text.isSpace ≠ [] := by
      rw [List.dropWhile_cons_of_neg (by decide)]
      exact List.cons_ne_nil _ _
    have hzero : [ascii '0', ascii 'x', a, b].dropWhile Text.isSpace = [ascii '0', ascii 'x', a, b] :=
      rfl
    rw [strValFloat, hzero]
    simp only [hloop, hspace, false_and, if_false, ite_self]
  have hhex : strValHex [ascii '0', ascii 'x', a, b] =
      (hexLoop 0 [a, b]).map fun x => ofInt x.toInt := rfl
  have hint : ∀ i j : Fin 16, (BitVec.ofNat 32 (16 * i.val + j.val)).toInt = (16 * i.val + j.val : ℕ) := by
    decide
  rw [strVal, hfloat, Option.or_none, hhex, hexLoop_two]
  cases ha : hexDigit a with
  | none => rfl
  | some i =>
      cases hb : hexDigit b with
      | none => rfl
      | some j =>
          have htoInt := hint ⟨i, hexDigit_lt ha⟩ ⟨j, hexDigit_lt hb⟩
          simp only [Option.bind_some, Option.map_some]
          rw [htoInt]

/-- **An escape** is read as one byte, or as nothing where the byte is zero. -/
theorem chrVal_hex {a b : UInt8} {i j : ℕ} (ha : hexDigit a = some i) (hb : hexDigit b = some j) :
    chrVal [ascii '0', ascii 'x', a, b] =
      .ok (if 16 * i + j = 0 then [] else [UInt8.ofNat (16 * i + j)]) := by
  have hi := hexDigit_lt ha
  have hj := hexDigit_lt hb
  obtain ⟨hvalue, hsign⟩ := magnitude_encode_natCast (n := 16 * i + j) (by omega) false
  have hof : ofInt ((16 * i + j : ℕ) : ℤ) = encode false (16 * i + j : ℕ) := by
    rw [ofInt, Int.natAbs_natCast, decide_eq_false (by omega)]
  rw [chrVal, strVal_hex, ha, hb]
  simp only [Option.bind_some, Option.map_some]
  rw [hof]
  simp only [hvalue, hsign, Bool.false_eq_true, if_false, Nat.floor_natCast]
  rw [if_neg (by omega), Int.toNat_natCast]
  congr 1
  split_ifs <;> first | rfl | omega

theorem chrVal_bad {a b : UInt8} (h : ¬((hexDigit a).isSome ∧ (hexDigit b).isSome)) :
    chrVal [ascii '0', ascii 'x', a, b] = .error (.error "not a real number") := by
  have hnone : strVal [ascii '0', ascii 'x', a, b] = none := by
    rw [strVal_hex]
    cases ha : hexDigit a with
    | none => rfl
    | some i =>
        cases hb : hexDigit b with
        | none => rfl
        | some j => exact absurd ⟨by rw [ha]; rfl, by rw [hb]; rfl⟩ h
  rw [chrVal, hnone]

/-! ## The decoder -/

theorem not_hex_percent : hexDigit (ascii '%') = none := by decide

theorem decode_escape {a b : UInt8} {i j : ℕ} (ha : hexDigit a = some i) (hb : hexDigit b = some j)
    (s : List UInt8) : httpdUrlDecode (ascii '%' :: a :: b :: s) =
      (httpdUrlDecode s >>= fun out =>
        .ok ((if 16 * i + j = 0 then [] else [UInt8.ofNat (16 * i + j)]) ++ out)) := by
  rw [httpdUrlDecode, if_pos rfl, chrVal_hex ha hb, ok_bind]

theorem decode_percent {s : List UInt8} (hs : s.length < 2) : httpdUrlDecode (ascii '%' :: s) =
    (httpdUrlDecode s >>= fun out => .ok (ascii '%' :: out)) := by
  match s with
  | [] => rfl
  | [a] => rw [httpdUrlDecode, if_pos rfl]
  | _ :: _ :: _ => exact absurd hs (by simp)

theorem decode_plus (s : List UInt8) : httpdUrlDecode (ascii '+' :: s) =
    (httpdUrlDecode s >>= fun out => .ok (ascii ' ' :: out)) := by
  have hne : ascii '+' ≠ ascii '%' := by decide
  conv_lhs => rw [httpdUrlDecode.eq_def]
  simp only [hne, if_false, if_true]

theorem decode_plain {c : UInt8} (hpercent : c ≠ ascii '%') (hplus : c ≠ ascii '+')
    (s : List UInt8) : httpdUrlDecode (c :: s) =
      (httpdUrlDecode s >>= fun out => .ok (c :: out)) := by
  conv_lhs => rw [httpdUrlDecode.eq_def]
  simp only [hpercent, hplus, if_false]

/-- **The decoder** finds the bytes that a text stands for, when there are such bytes. -/
theorem httpdUrlDecode_iff {s u : List UInt8} : httpdUrlDecode s = .ok u ↔ Spells s u := by
  constructor
  · intro h
    fun_induction httpdUrlDecode s generalizing u with
    | case1 =>
        obtain rfl := Except.ok.inj h
        exact .nil
    | case2 a b s ih =>
        by_cases hhex : (hexDigit a).isSome ∧ (hexDigit b).isSome
        · obtain ⟨i, ha⟩ := Option.isSome_iff_exists.mp hhex.1
          obtain ⟨j, hb⟩ := Option.isSome_iff_exists.mp hhex.2
          rw [chrVal_hex ha hb, ok_bind] at h
          obtain ⟨out, hout, h⟩ := bind_ok.mp h
          obtain rfl := Except.ok.inj h
          exact .escape ha hb (ih hout)
        · rw [chrVal_bad hhex, error_bind] at h
          cases h
    | case3 a ih =>
        obtain ⟨out, hout, h⟩ := bind_ok.mp h
        obtain rfl := Except.ok.inj h
        exact .percent (by simp) (ih hout)
    | case4 =>
        obtain rfl := Except.ok.inj h
        exact .percent (by simp) .nil
    | case5 s _ ih =>
        obtain ⟨out, hout, h⟩ := bind_ok.mp h
        obtain rfl := Except.ok.inj h
        exact .plus (ih hout)
    | case6 c s hpercent hplus ih =>
        obtain ⟨out, hout, h⟩ := bind_ok.mp h
        obtain rfl := Except.ok.inj h
        exact .plain hpercent hplus (ih hout)
  · intro h
    induction h with
    | nil => rfl
    | escape ha hb _ ih => rw [decode_escape ha hb, ih, ok_bind]
    | percent hs _ ih => rw [decode_percent hs, ih, ok_bind]
    | plus _ ih => rw [decode_plus, ih, ok_bind]
    | plain hpercent hplus _ ih => rw [decode_plain hpercent hplus, ih, ok_bind]

theorem Spells.unique {s u u' : List UInt8} (h : Spells s u) (h' : Spells s u') : u = u' := by
  rw [← httpdUrlDecode_iff] at h h'
  exact Except.ok.inj (h.symm.trans h')

theorem Escaped.of_cons {c : UInt8} {s : List UInt8} (h : Escaped (c :: s)) : Escaped s := by
  rintro pre a b t rfl
  exact h (c :: pre) a b t rfl

/-- A text that stands for bytes has no other escapes. -/
theorem Spells.escaped {s u : List UInt8} (h : Spells s u) : Escaped s := by
  induction h with
  | nil => exact fun pre a b t h => absurd h (by simp)
  | escape ha hb _ ih =>
      intro pre a' b' t heq
      match pre with
      | [] =>
          obtain ⟨rfl, hrest⟩ := List.cons.inj (List.cons.inj heq).2
          obtain ⟨rfl, -⟩ := List.cons.inj hrest
          exact ⟨by rw [ha]; rfl, by rw [hb]; rfl⟩
      | [_] =>
          obtain ⟨rfl, -⟩ := List.cons.inj (List.cons.inj heq).2
          rw [not_hex_percent] at ha
          cases ha
      | [_, _] =>
          obtain ⟨rfl, -⟩ := List.cons.inj (List.cons.inj (List.cons.inj heq).2).2
          rw [not_hex_percent] at hb
          cases hb
      | _ :: _ :: _ :: pre =>
          exact ih pre a' b' t (List.cons.inj (List.cons.inj (List.cons.inj heq).2).2).2
  | percent hs _ ih =>
      intro pre a b t heq
      cases pre with
      | nil =>
          obtain ⟨-, rfl⟩ := List.cons.inj heq
          exact absurd hs (by simp)
      | cons _ pre => exact ih pre a b t (List.cons.inj heq).2
  | plus _ ih =>
      intro pre a b t heq
      cases pre with
      | nil => exact absurd (List.cons.inj heq).1 (by decide)
      | cons _ pre => exact ih pre a b t (List.cons.inj heq).2
  | plain hpercent _ _ ih =>
      intro pre a b t heq
      cases pre with
      | nil => exact absurd (List.cons.inj heq).1 hpercent
      | cons _ pre => exact ih pre a b t (List.cons.inj heq).2

theorem Escaped.spells {s : List UInt8} (h : Escaped s) : ∃ u, Spells s u := by
  fun_induction httpdUrlDecode s with
  | case1 => exact ⟨[], .nil⟩
  | case2 a b s ih =>
      obtain ⟨hhex, hhex'⟩ := h [] a b s rfl
      obtain ⟨i, ha⟩ := Option.isSome_iff_exists.mp hhex
      obtain ⟨j, hb⟩ := Option.isSome_iff_exists.mp hhex'
      obtain ⟨u, hu⟩ := ih h.of_cons.of_cons.of_cons
      exact ⟨_, .escape ha hb hu⟩
  | case3 a ih =>
      obtain ⟨u, hu⟩ := ih h.of_cons
      exact ⟨_, .percent (by simp) hu⟩
  | case4 => exact ⟨_, .percent (by simp) .nil⟩
  | case5 s _ ih =>
      obtain ⟨u, hu⟩ := ih h.of_cons
      exact ⟨_, .plus hu⟩
  | case6 c s hpercent hplus ih =>
      obtain ⟨u, hu⟩ := ih h.of_cons
      exact ⟨_, .plain hpercent hplus hu⟩

theorem exists_spells_iff {s : List UInt8} : (∃ u, Spells s u) ↔ Escaped s :=
  ⟨fun ⟨_, hu⟩ => hu.escaped, Escaped.spells⟩

/-- **The decoder fails** at the escapes that are not hexadecimal. -/
theorem exists_decode_iff {s : List UInt8} : (∃ u, httpdUrlDecode s = .ok u) ↔ Escaped s := by
  simp only [httpdUrlDecode_iff]
  exact exists_spells_iff

/-! ## Forms -/

/-- A part of a form is cut at its first `=`. -/
def cut (pair : List UInt8) : Option (List UInt8 × List UInt8) :=
  match index (ascii '=') pair with
  | none => none
  | some eq => some (left pair (eq - 1), mid pair (eq + 1))

/-- The parts of a form that have a `=`, as they are written. -/
def fields (body : List UInt8) : List (List UInt8 × List UInt8) :=
  (body.splitOn (ascii '&')).filterMap cut

/-- A key and a value stand for others. -/
def SpellsPair (f p : List UInt8 × List UInt8) : Prop := Spells f.1 p.1 ∧ Spells f.2 p.2

theorem index_eq_none_iff {c : UInt8} {s : List UInt8} : index c s = none ↔ c ∉ s := by
  rw [index, Option.map_eq_none_iff, List.findIdx?_eq_none_iff]
  simp only [decide_eq_false_iff_not]
  exact ⟨fun h hc => h c hc rfl, fun h x hx heq => h (heq ▸ hx)⟩

/-- What stands before the first occurrence and after it. -/
theorem index_eq_some {c : UInt8} {s : List UInt8} {i : ℕ} (h : index c s = some i) :
    s = left s (i - 1) ++ c :: mid s (i + 1) ∧ c ∉ left s (i - 1) := by
  obtain ⟨j, hj, rfl⟩ := Option.map_eq_some_iff.mp h
  obtain ⟨hlt, hc, hbefore⟩ := List.findIdx?_eq_some_iff_getElem.mp hj
  rw [left, mid, Nat.add_sub_cancel, Nat.add_sub_cancel]
  constructor
  · rw [← of_decide_eq_true hc, List.getElem_cons_drop hlt, List.take_append_drop]
  · intro hmem
    obtain ⟨k, hk, hget⟩ := List.getElem_of_mem hmem
    rw [List.length_take] at hk
    rw [List.getElem_take] at hget
    exact absurd (hbefore k (by omega)) (by simp [hget])

theorem index_append {c : UInt8} {pre post : List UInt8} (h : c ∉ pre) :
    index c (pre ++ c :: post) = some (pre.length + 1) := by
  have hfind : (pre ++ c :: post).findIdx? (· = c) = some pre.length := by
    rw [List.findIdx?_append, List.findIdx?_eq_none_iff.mpr fun x hx => ?_, Option.none_or]
    · simp [List.findIdx?_cons]
    · rw [decide_eq_false_iff_not]
      rintro rfl
      exact h hx
  rw [index, hfind]
  rfl

theorem cut_eq {k v : List UInt8} (h : ascii '=' ∉ k) : cut (k ++ ascii '=' :: v) = some (k, v) := by
  rw [cut, index_append h]
  simp only [left, mid, Nat.add_sub_cancel, List.take_left']
  rw [← List.singleton_append, ← List.append_assoc, List.drop_left' (by simp)]

theorem parsePair_ok_iff {pair : List UInt8} {result r : Alist} :
    parsePair pair result = .ok r ↔
      ∃ more, r = result ++ more ∧ List.Forall₂ SpellsPair (cut pair).toList more := by
  unfold parsePair cut
  cases index (ascii '=') pair with
  | none =>
      simp only [Option.toList_none, List.forall₂_nil_left_iff, exists_eq_right, List.append_nil]
      exact ⟨fun h => (Except.ok.inj h).symm, fun h => h ▸ rfl⟩
  | some eq =>
      simp only [Option.toList_some, List.forall₂_cons_left_iff, List.forall₂_nil_left_iff]
      constructor
      · intro h
        obtain ⟨key, hkey, h⟩ := bind_ok.mp h
        obtain ⟨val, hval, h⟩ := bind_ok.mp h
        obtain rfl := Except.ok.inj h
        exact ⟨[(key, val)], rfl, (key, val), [],
          ⟨httpdUrlDecode_iff.mp hkey, httpdUrlDecode_iff.mp hval⟩, rfl, rfl⟩
      · rintro ⟨more, rfl, ⟨key, val⟩, _, ⟨hkey, hval⟩, rfl, rfl⟩
        rw [httpdUrlDecode_iff.mpr hkey, ok_bind, httpdUrlDecode_iff.mpr hval, ok_bind]

theorem forall₂_append_left {α β : Type} {R : α → β → Prop} {l₁ l₂ : List α} {l : List β} :
    List.Forall₂ R (l₁ ++ l₂) l ↔
      ∃ m₁ m₂, l = m₁ ++ m₂ ∧ List.Forall₂ R l₁ m₁ ∧ List.Forall₂ R l₂ m₂ := by
  constructor
  · intro h
    have hflip := h.flip
    exact ⟨_, _, (List.take_append_drop l₁.length l).symm,
      (List.forall₂_take_append l l₁ l₂ hflip).flip, (List.forall₂_drop_append l l₁ l₂ hflip).flip⟩
  · rintro ⟨m₁, m₂, rfl, h₁, h₂⟩
    exact List.rel_append h₁ h₂

theorem filterMap_cut_singleton (pair : List UInt8) : [pair].filterMap cut = (cut pair).toList := by
  rw [List.filterMap_cons]
  cases cut pair <;> rfl

/-- **A form is read** as the keys and values that its parts stand for. -/
theorem parseLoop_ok_iff {s : List UInt8} {result r : Alist} :
    parseLoop s result = .ok r ↔
      ∃ more, r = result ++ more ∧ List.Forall₂ SpellsPair (fields s) more := by
  induction hn : s.length using Nat.strong_induction_on generalizing s result with
  | _ n ih =>
      rw [parseLoop]
      split
      case h_1 hnone =>
        rw [fields, List.splitOn_eq_singleton (index_eq_none_iff.mp hnone), filterMap_cut_singleton,
          parsePair_ok_iff]
      case h_2 amp hamp =>
        obtain ⟨hs, hnot⟩ := index_eq_some hamp
        have hbounds := index_bounds hamp
        have hshort : (mid s (amp + 1)).length < n := by
          rw [mid, List.length_drop]
          omega
        have hfields : fields s = (cut (left s (amp - 1))).toList ++ fields (mid s (amp + 1)) := by
          rw [fields]
          nth_rewrite 1 [hs]
          rw [List.splitOn_append_cons_self_of_not_mem hnot, ← List.singleton_append,
            List.filterMap_append, filterMap_cut_singleton]
          rfl
        rw [bind_ok, hfields]
        simp only [parsePair_ok_iff, ih _ hshort rfl, forall₂_append_left]
        constructor
        · rintro ⟨_, ⟨m₁, rfl, h₁⟩, m₂, rfl, h₂⟩
          exact ⟨m₁ ++ m₂, List.append_assoc _ _ _, m₁, m₂, rfl, h₁, h₂⟩
        · rintro ⟨_, rfl, m₁, m₂, rfl, h₁, h₂⟩
          exact ⟨_, ⟨m₁, rfl, h₁⟩, m₂, (List.append_assoc _ _ _).symm, h₂⟩

theorem httpdParseForm_iff {body : List UInt8} {r : Alist} :
    httpdParseForm body = .ok r ↔ List.Forall₂ SpellsPair (fields body) r := by
  rw [httpdParseForm, parseLoop_ok_iff]
  simp only [List.nil_append, exists_eq_left']

theorem exists_parse_iff {body : List UInt8} :
    (∃ r, httpdParseForm body = .ok r) ↔ ∀ f ∈ fields body, Escaped f.1 ∧ Escaped f.2 := by
  simp only [httpdParseForm_iff]
  induction fields body with
  | nil => exact ⟨fun _ f hf => absurd hf List.not_mem_nil, fun _ => ⟨[], .nil⟩⟩
  | cons f fs ih =>
      rw [List.forall_mem_cons, ← ih, ← exists_spells_iff, ← exists_spells_iff]
      simp only [List.forall₂_cons_left_iff]
      constructor
      · rintro ⟨_, p, r, hp, hr, rfl⟩
        exact ⟨⟨⟨_, hp.1⟩, ⟨_, hp.2⟩⟩, r, hr⟩
      · rintro ⟨⟨⟨u, hu⟩, ⟨v, hv⟩⟩, r, hr⟩
        exact ⟨_, (u, v), r, ⟨hu, hv⟩, hr, rfl⟩

/-! ## Written forms -/

/-- A percent-encoding of bytes. -/
inductive PercentEncodes : List UInt8 → List UInt8 → Prop
  | nil : PercentEncodes [] []
  | escape {a b : UInt8} {i j : ℕ} {s u : List UInt8} : hexDigit a = some i → hexDigit b = some j →
      16 * i + j ≠ 0 → PercentEncodes s u →
      PercentEncodes (ascii '%' :: a :: b :: s) (UInt8.ofNat (16 * i + j) :: u)
  | plus {s u : List UInt8} : PercentEncodes s u → PercentEncodes (ascii '+' :: s) (ascii ' ' :: u)
  | literal {c : UInt8} {s u : List UInt8} : c ∉ [ascii '%', ascii '+', ascii '&', ascii '='] →
      PercentEncodes s u → PercentEncodes (c :: s) (c :: u)

/-- An `application/x-www-form-urlencoded` text of keys and values. -/
inductive FormText : List UInt8 → Alist → Prop
  | nil : FormText [] []
  | last {k v key val : List UInt8} : PercentEncodes k key → PercentEncodes v val →
      FormText (k ++ ascii '=' :: v) [(key, val)]
  | cons {k v key val rest : List UInt8} {p : List UInt8 × List UInt8} {pairs : Alist} :
      PercentEncodes k key → PercentEncodes v val → FormText rest (p :: pairs) →
      FormText (k ++ ascii '=' :: v ++ ascii '&' :: rest) ((key, val) :: p :: pairs)

theorem PercentEncodes.spells {s u : List UInt8} (h : PercentEncodes s u) : Spells s u := by
  induction h with
  | nil => exact .nil
  | escape ha hb hne _ ih =>
      have hspells := Spells.escape ha hb ih
      rwa [if_neg hne] at hspells
  | plus _ ih => exact .plus ih
  | literal hc _ ih =>
      simp only [List.mem_cons, List.not_mem_nil, or_false, not_or] at hc
      exact .plain hc.1 hc.2.1 ih

/-- No separators are left. -/
theorem PercentEncodes.separators {s u : List UInt8} (h : PercentEncodes s u) :
    ascii '&' ∉ s ∧ ascii '=' ∉ s := by
  have hnot : ∀ {c : UInt8} {i : ℕ}, hexDigit c = some i → ascii '&' ≠ c ∧ ascii '=' ≠ c := by
    intro c i hc
    have hamp : hexDigit (ascii '&') = none := by decide
    have heq : hexDigit (ascii '=') = none := by decide
    constructor
    · rintro rfl
      rw [hamp] at hc
      cases hc
    · rintro rfl
      rw [heq] at hc
      cases hc
  have hpercent : ascii '&' ≠ ascii '%' ∧ ascii '=' ≠ ascii '%' := by decide
  have hplus : ascii '&' ≠ ascii '+' ∧ ascii '=' ≠ ascii '+' := by decide
  induction h with
  | nil => exact ⟨List.not_mem_nil, List.not_mem_nil⟩
  | escape ha hb _ _ ih =>
      have ha := hnot ha
      have hb := hnot hb
      simp only [List.mem_cons, not_or]
      exact ⟨⟨hpercent.1, ha.1, hb.1, ih.1⟩, hpercent.2, ha.2, hb.2, ih.2⟩
  | plus _ ih =>
      simp only [List.mem_cons, not_or]
      exact ⟨⟨hplus.1, ih.1⟩, hplus.2, ih.2⟩
  | literal hc _ ih =>
      simp only [List.mem_cons, List.not_mem_nil, or_false, not_or] at hc
      simp only [List.mem_cons, not_or]
      exact ⟨⟨Ne.symm hc.2.2.1, ih.1⟩, Ne.symm hc.2.2.2, ih.2⟩

theorem PercentEncodes.pair {k v key val : List UInt8} (hk : PercentEncodes k key) (hv : PercentEncodes v val) :
    ascii '&' ∉ k ++ ascii '=' :: v ∧ cut (k ++ ascii '=' :: v) = some (k, v) := by
  have hne : ascii '&' ≠ ascii '=' := by decide
  refine ⟨?_, cut_eq hk.separators.2⟩
  simp only [List.mem_append, List.mem_cons, not_or]
  exact ⟨hk.separators.1, hne, hv.separators.1⟩

/-- **A written form is read back.** -/
theorem parseForm_formText {text : List UInt8} {pairs : Alist} (h : FormText text pairs) :
    httpdParseForm text = .ok pairs := by
  rw [httpdParseForm_iff]
  induction h with
  | nil => exact .nil
  | last hk hv =>
      obtain ⟨hamp, hcut⟩ := hk.pair hv
      rw [fields, List.splitOn_eq_singleton hamp, filterMap_cut_singleton, hcut]
      exact .cons ⟨hk.spells, hv.spells⟩ .nil
  | cons hk hv _ ih =>
      obtain ⟨hamp, hcut⟩ := hk.pair hv
      rw [fields, List.splitOn_append_cons_self_of_not_mem hamp, List.filterMap_cons, hcut]
      exact .cons ⟨hk.spells, hv.spells⟩ ih

/-! ## The lookup -/

/-- What stands after the first occurrence of a text. -/
def FirstAfter (query search rest : List UInt8) : Prop :=
  ∃ pre, query = pre ++ (search ++ rest) ∧
    ∀ pre' rest', query = pre' ++ (search ++ rest') → pre.length ≤ pre'.length

/-- The value, as it is written, of the first key that stands for a name. -/
def FirstValue (fs : List (List UInt8 × List UInt8)) (name v : List UInt8) : Prop :=
  ∃ l₁ k l₂, fs = l₁ ++ (k, v) :: l₂ ∧ Spells k name ∧ ∀ f ∈ l₁, ¬Spells f.1 name

theorem strIndex_eq_none {s1 s2 : List UInt8} (hs1 : s1 ≠ []) :
    strIndex s1 s2 = none ↔ ¬s1 <:+: s2 := by
  induction s2 with
  | nil => simpa [strIndex] using hs1
  | cons c s2 ih =>
      rw [strIndex, List.infix_cons_iff, not_or]
      split_ifs with hstarts
      · simp [hstarts]
      · rw [Option.map_eq_none_iff, ih, and_iff_right hstarts]

theorem strIndex_eq_some {s1 s2 : List UInt8} {i : ℕ} (h : strIndex s1 s2 = some i) :
    ∃ pre rest, s2 = pre ++ (s1 ++ rest) ∧ i = pre.length + 1 ∧
      ∀ pre' rest', s2 = pre' ++ (s1 ++ rest') → pre.length ≤ pre'.length := by
  induction s2 generalizing i with
  | nil => cases h
  | cons c s2 ih =>
      rw [strIndex] at h
      split_ifs at h with hstarts
      · obtain ⟨rest, hrest⟩ := hstarts
        exact ⟨[], rest, hrest.symm, (Option.some.inj h).symm, fun _ _ _ => Nat.zero_le _⟩
      · obtain ⟨j, hj, rfl⟩ := Option.map_eq_some_iff.mp h
        obtain ⟨pre, rest, rfl, rfl, hfirst⟩ := ih hj
        refine ⟨c :: pre, rest, rfl, rfl, fun pre' rest' heq => ?_⟩
        cases pre' with
        | nil => exact absurd ⟨rest', heq.symm⟩ hstarts
        | cons c' pre' =>
            have hle := hfirst pre' rest' (List.cons.inj heq).2
            simpa using hle

theorem FirstAfter.unique {query search rest rest' : List UInt8}
    (h : FirstAfter query search rest) (h' : FirstAfter query search rest') : rest = rest' := by
  obtain ⟨pre, hpre, hfirst⟩ := h
  obtain ⟨pre', hpre', hfirst'⟩ := h'
  have hlength := le_antisymm (hfirst pre' rest' hpre') (hfirst' pre rest hpre)
  have heq := (List.append_inj (hpre.symm.trans hpre') hlength).2
  exact List.append_cancel_left heq

/-- The text up to the next `&`. -/
def untilAmp (s : List UInt8) : List UInt8 := s.takeWhile (· ≠ ascii '&')

theorem left_amp (s : List UInt8) :
    (match index (ascii '&') s with
      | none => s
      | some amp => left s (amp - 1)) = untilAmp s := by
  cases hamp : index (ascii '&') s with
  | none =>
      have hnot := index_eq_none_iff.mp hamp
      refine (List.takeWhile_eq_self_iff.mpr fun b hb => decide_eq_true ?_).symm
      rintro rfl
      exact hnot hb
  | some amp =>
      obtain ⟨hs, hnot⟩ := index_eq_some hamp
      have htake : untilAmp (left s (amp - 1) ++ ascii '&' :: mid s (amp + 1)) = left s (amp - 1) := by
        rw [untilAmp, List.takeWhile_append_of_pos, List.takeWhile_cons_of_neg (by simp),
          List.append_nil]
        intro b hb
        refine decide_eq_true ?_
        rintro rfl
        exact hnot hb
      rw [← hs] at htake
      exact htake.symm

variable {query name : List UInt8}

theorem queryParam_none (h : ¬name ++ [ascii '='] <:+: query) :
    httpdQueryParam query name = .ok none := by
  unfold httpdQueryParam
  split_ifs
  · rfl
  · simp only [(strIndex_eq_none (by simp)).mpr h]

/-- **The lookup** takes what stands after the first occurrence, up to the next `&`. -/
theorem queryParam_some {rest : List UInt8} (h : FirstAfter query (name ++ [ascii '=']) rest) :
    httpdQueryParam query name = (httpdUrlDecode (untilAmp rest)).map some := by
  obtain ⟨pre, hquery, hfirst⟩ := h
  have hoccurs : name ++ [ascii '='] <:+: query :=
    ⟨pre, rest, by rw [hquery, List.append_assoc]⟩
  obtain ⟨i, hi⟩ := Option.ne_none_iff_exists'.mp
    (mt (strIndex_eq_none (List.append_ne_nil_of_right_ne_nil name (List.cons_ne_nil _ _))).mp
      (not_not.mpr hoccurs))
  obtain ⟨pre', rest', hquery', rfl, hfirst'⟩ := strIndex_eq_some hi
  have hsame := FirstAfter.unique ⟨pre, hquery, hfirst⟩ ⟨pre', hquery', hfirst'⟩
  subst hsame
  have hmid : mid query (pre'.length + 1 + (name ++ [ascii '=']).length) = rest := by
    rw [mid, hquery', ← List.append_assoc]
    refine List.drop_left' ?_
    rw [List.length_append]
    omega
  have hnonempty : query.length ≠ 0 := by
    rw [hquery]
    simp
  rw [httpdQueryParam, if_neg hnonempty]
  simp only [hi, hmid]
  exact congrArg (fun s => (httpdUrlDecode s).map some) (left_amp rest)

/-- The first value in the list that a form is read as. -/
theorem lookup_first {fs : List (List UInt8 × List UInt8)} {pairs : Alist}
    (h : List.Forall₂ SpellsPair fs pairs) :
    (pairs.lookup name = none ∧ ∀ f ∈ fs, ¬Spells f.1 name) ∨
      ∃ v u, pairs.lookup name = some u ∧ FirstValue fs name v ∧ Spells v u := by
  induction h with
  | nil => exact .inl ⟨rfl, fun f hf => absurd hf List.not_mem_nil⟩
  | @cons f p fs pairs hp _ ih =>
      obtain ⟨key, val⟩ := p
      by_cases hkey : name = key
      · subst hkey
        refine .inr ⟨f.2, val, ?_, ⟨[], f.1, fs, rfl, hp.1, fun f hf => absurd hf List.not_mem_nil⟩,
          hp.2⟩
        rw [List.lookup_cons_self]
      · have hnot : ¬Spells f.1 name := fun hname => hkey (hname.unique hp.1)
        have hlookup : List.lookup name ((key, val) :: pairs) = List.lookup name pairs := by
          rw [List.lookup_cons, beq_eq_false_iff_ne.mpr hkey]
        rw [hlookup]
        rcases ih with ⟨hnone, hall⟩ | ⟨v, u, hsome, ⟨l₁, k, l₂, rfl, hk, hall⟩, hv⟩
        · exact .inl ⟨hnone, List.forall_mem_cons.mpr ⟨hnot, hall⟩⟩
        · exact .inr ⟨v, u, hsome, ⟨f :: l₁, k, l₂, rfl, hk, List.forall_mem_cons.mpr ⟨hnot, hall⟩⟩, hv⟩

theorem FirstValue.unique {fs : List (List UInt8 × List UInt8)} {v v' : List UInt8}
    (h : FirstValue fs name v) (h' : FirstValue fs name v') : v = v' := by
  obtain ⟨l₁, k, l₂, rfl, hk, hall⟩ := h
  obtain ⟨l₁', k', l₂', heq, hk', hall'⟩ := h'
  induction l₁ generalizing l₁' with
  | nil =>
      cases l₁' with
      | nil => exact (Prod.mk.inj (List.cons.inj heq).1).2
      | cons f l₁' =>
          have hf := hall' f List.mem_cons_self
          rw [← (List.cons.inj heq).1] at hf
          exact absurd hk hf
  | cons f l₁ ih =>
      cases l₁' with
      | nil =>
          have hf := hall f List.mem_cons_self
          rw [(List.cons.inj heq).1] at hf
          exact absurd hk' hf
      | cons f' l₁' =>
          exact ih (fun f hf => hall f (List.mem_cons_of_mem _ hf)) l₁' (List.cons.inj heq).2
            fun f hf => hall' f (List.mem_cons_of_mem _ hf)

/-- The lookup gives the first value of the name in the list that the form is read as, or `()`. -/
def Agrees (query name : List UInt8) : Prop :=
  ∃ pairs, httpdParseForm query = .ok pairs ∧
    httpdQueryParam query name = .ok (pairs.lookup name)

/-- All escapes in keys and values are hexadecimal. -/
def FormEscaped (body : List UInt8) : Prop := ∀ f ∈ fields body, Escaped f.1 ∧ Escaped f.2

/-- The text behind the first `name=` and the first value that is written for the name stand for the same
bytes, or there is neither. -/
def SameValue (query name : List UInt8) : Prop :=
  (¬name ++ [ascii '='] <:+: query ∧ ∀ f ∈ fields query, ¬Spells f.1 name) ∨
    ∃ rest v u, FirstAfter query (name ++ [ascii '=']) rest ∧ FirstValue (fields query) name v ∧
      Spells (untilAmp rest) u ∧ Spells v u

theorem exists_firstAfter (h : name ++ [ascii '='] <:+: query) :
    ∃ rest, FirstAfter query (name ++ [ascii '=']) rest := by
  obtain ⟨i, hi⟩ := Option.ne_none_iff_exists'.mp
    (mt (strIndex_eq_none (List.append_ne_nil_of_right_ne_nil name (List.cons_ne_nil _ _))).mp
      (not_not.mpr h))
  obtain ⟨pre, rest, hquery, -, hfirst⟩ := strIndex_eq_some hi
  exact ⟨rest, pre, hquery, hfirst⟩

theorem agrees_iff : Agrees query name ↔ FormEscaped query ∧ SameValue query name := by
  constructor
  · rintro ⟨pairs, hparse, hparam⟩
    refine ⟨exists_parse_iff.mp ⟨pairs, hparse⟩, ?_⟩
    by_cases hoccurs : name ++ [ascii '='] <:+: query
    · obtain ⟨rest, hrest⟩ := exists_firstAfter hoccurs
      rw [queryParam_some hrest] at hparam
      rcases hdecode : httpdUrlDecode (untilAmp rest) with e | u
      · rw [hdecode] at hparam
        cases hparam
      · rw [hdecode] at hparam
        have hlookup : some u = pairs.lookup name := Except.ok.inj hparam
        rcases @lookup_first name _ _ (httpdParseForm_iff.mp hparse) with
          ⟨hnone, -⟩ | ⟨v, u', hsome, hfirst, hv⟩
        · rw [hnone] at hlookup
          cases hlookup
        · obtain rfl := Option.some.inj (hlookup.trans hsome)
          exact .inr ⟨rest, v, u, hrest, hfirst, httpdUrlDecode_iff.mp hdecode, hv⟩
    · rw [queryParam_none hoccurs] at hparam
      rcases @lookup_first name _ _ (httpdParseForm_iff.mp hparse) with
        ⟨-, hall⟩ | ⟨v, u, hsome, -, -⟩
      · exact .inl ⟨hoccurs, hall⟩
      · rw [hsome] at hparam
        cases Except.ok.inj hparam
  · rintro ⟨hescaped, hsame⟩
    obtain ⟨pairs, hparse⟩ := exists_parse_iff.mpr hescaped
    refine ⟨pairs, hparse, ?_⟩
    rcases @lookup_first name _ _ (httpdParseForm_iff.mp hparse) with
      ⟨hnone, hall⟩ | ⟨v, u, hsome, hfirst, hv⟩
    · rcases hsame with ⟨hoccurs, -⟩ | ⟨rest, v, u, -, ⟨l₁, k, l₂, heq, hk, -⟩, -, -⟩
      · rw [queryParam_none hoccurs, hnone]
      · exact absurd hk (hall (k, v) (by rw [heq]; simp))
    · rcases hsame with ⟨-, hall⟩ | ⟨rest, v', u', hrest, hfirst', hu', hv'⟩
      · obtain ⟨l₁, k, l₂, heq, hk, -⟩ := hfirst
        exact absurd hk (hall (k, v) (by rw [heq]; simp))
      · obtain rfl := hfirst.unique hfirst'
        obtain rfl := hv.unique hv'
        rw [queryParam_some hrest, httpdUrlDecode_iff.mpr hu', hsome]
        rfl

end Lush.Httpd
