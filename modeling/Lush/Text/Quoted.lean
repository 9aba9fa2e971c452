import Lush.Text.Sexp

/-!
# Strings between quotes

Text that is put together with `concat` has its strings between quotes as they are, without
escapes.  `read_word` ends such a string at the first quote that no backslash hides, and
`rl_string` expands its backslashes.  The string that was meant is read when it has no quotes,
no backslashes and no control characters, and is not too long (`judged_quoted`).

When a backslash hides the closing quote, the word goes on into the text that follows.  The
string that is read then has a quote where the one that was meant has none: a backslash and
what it takes along make at most one character, so that the first quote of the word comes out
before the place that it has in the word (`rlLoop_quote`).
-/

namespace Lush.Text

variable {caseSensitive : Bool}

/-- A string between quotes. -/
def quoted (s : List UInt8) : List UInt8 := 34 :: (s ++ [34])

/-- A character that stands for itself between quotes. -/
def Literal (c : UInt8) : Prop := c ≠ 34 ∧ c ≠ 92 ∧ c ≠ eof ∧ ¬(isAscii c ∧ isCntrl c)

instance (c : UInt8) : Decidable (Literal c) := inferInstanceAs (Decidable (_ ∧ _))

/-- A string that can be written between quotes. -/
structure Quotable (s : List UInt8) : Prop where
  literal : ∀ c ∈ s, Literal c
  fits : s.length + 1 ≤ stringBuffer - 2

/-! ## Expanding backslashes -/

theorem length_hexDigits (n : ℕ) (s : List UInt8) :
    ∃ u, s = u ++ (hexDigits n s).2.2 ∧ 34 ∉ u ∧ u.length = (hexDigits n s).1 := by
  have hquote : hexDigit 34 = none := by decide +kernel
  induction n generalizing s with
  | zero => exact ⟨[], by simp [hexDigits], List.not_mem_nil, by simp [hexDigits]⟩
  | succ n ih =>
      cases s with
      | nil => exact ⟨[], by simp [hexDigits], List.not_mem_nil, by simp [hexDigits]⟩
      | cons c s =>
          cases hc : hexDigit c with
          | none => exact ⟨[], by simp [hexDigits, hc], List.not_mem_nil, by simp [hexDigits, hc]⟩
          | some d =>
              obtain ⟨u, hs, hmem, hlength⟩ := ih s
              have hne : c ≠ 34 := by
                rintro rfl
                rw [hquote] at hc
                cases hc
              refine ⟨c :: u, ?_, ?_, ?_⟩
              · simp only [hexDigits, hc, List.cons_append]
                rw [← hs]
              · exact List.not_mem_cons_of_ne_of_not_mem hne.symm hmem
              · simp only [hexDigits, hc, List.length_cons, hlength]

theorem length_octDigits (n : ℕ) (s : List UInt8) :
    ∃ u, s = u ++ (octDigits n s).2.2 ∧ 34 ∉ u ∧ u.length = (octDigits n s).1 := by
  induction n generalizing s with
  | zero => exact ⟨[], by simp [octDigits], List.not_mem_nil, by simp [octDigits]⟩
  | succ n ih =>
      cases s with
      | nil => exact ⟨[], by simp [octDigits], List.not_mem_nil, by simp [octDigits]⟩
      | cons c s =>
          by_cases hc : 48 ≤ c ∧ c ≤ 55
          · obtain ⟨u, hs, hmem, hlength⟩ := ih s
            have hne : c ≠ 34 := by
              rintro rfl
              exact absurd hc.1 (by decide)
            refine ⟨c :: u, ?_, ?_, ?_⟩
            · simp only [octDigits, if_pos hc, List.cons_append]
              rw [← hs]
            · exact List.not_mem_cons_of_ne_of_not_mem hne.symm hmem
            · simp only [octDigits, if_pos hc, List.length_cons, hlength]
          · exact ⟨[], by simp [octDigits, hc], List.not_mem_nil, by simp [octDigits, hc]⟩

/-- What an escape takes, and what it makes of it: at most one character.  It takes a quote
as the quote of `\"`, or after a caret. -/
structure Takes (s out t u : List UInt8) : Prop where
  split : s = u ++ t
  nonempty : u ≠ []
  length : out.length ≤ 1
  quote : 34 ∈ u → u = [34] ∧ out = [34] ∨ ∃ c, u = [94, c]

theorem rlEscape_takes {s out t : List UInt8} (h : rlEscape s = .ok (out, t)) :
    ∃ u, Takes s out t u := by
  cases s with
  | nil => cases h
  | cons e s =>
      rw [rlEscape] at h
      cases hchr : strchr aspectString e with
      | some i =>
          rw [hchr] at h
          obtain ⟨rfl, rfl⟩ := Prod.mk.inj (Except.ok.inj h)
          refine ⟨[e], rfl, List.cons_ne_nil _ _, le_rfl, fun hmem => Or.inl ?_⟩
          obtain rfl := List.mem_singleton.mp hmem
          have hfirst : strchr aspectString 34 = some 0 := by decide +kernel
          obtain rfl := Option.some.inj (hfirst.symm.trans hchr)
          exact ⟨rfl, rfl⟩
      | none =>
          have hne : e ≠ 34 := by
            rintro rfl
            exact absurd hchr (by decide +kernel)
          simp only [hchr] at h
          split_ifs at h with h1 h2 h3 h4 h5 h6 h7
          · -- hexadecimal digits
            obtain ⟨rfl, rfl⟩ := Prod.mk.inj (Except.ok.inj h)
            obtain ⟨u, hs, hmem, -⟩ := length_hexDigits 2 s
            refine ⟨e :: u, by rw [List.cons_append, ← hs], List.cons_ne_nil _ _, le_rfl,
              fun hquote => ?_⟩
            exact absurd hquote (List.not_mem_cons_of_ne_of_not_mem hne.symm hmem)
          · -- a caret
            obtain ⟨rfl, rfl⟩ := Prod.mk.inj (Except.ok.inj h)
            obtain ⟨c, s', rfl⟩ := List.exists_cons_of_ne_nil h4.2
            exact ⟨[e, c], rfl, List.cons_ne_nil _ _, le_rfl, 
              fun _ => Or.inr ⟨c, by rw [h4.1]; rfl⟩⟩
          · -- the end of a line
            obtain ⟨rfl, rfl⟩ := Prod.mk.inj (Except.ok.inj h)
            exact ⟨[e], rfl, List.cons_ne_nil _ _, Nat.zero_le _,
              fun hmem => absurd (List.mem_singleton.mp hmem).symm hne⟩
          · -- octal digits
            obtain ⟨rfl, rfl⟩ := Prod.mk.inj (Except.ok.inj h)
            obtain ⟨u, hs, hmem, hlength⟩ := length_octDigits 3 (e :: s)
            refine ⟨u, hs, ?_, le_rfl, fun hquote => absurd hquote hmem⟩
            rintro rfl
            exact h7 hlength.symm

theorem rlLoop_cons {rounds : ℕ} {c : UInt8} {s out : List UInt8}
    (h : rlLoop rounds (c :: s) = .ok out) : ∃ rounds' rest, rounds = rounds' + 1 ∧
      (¬(c = 92 ∧ s ≠ []) ∧ rlLoop rounds' s = .ok rest ∧ out = c :: rest ∨
        c = 92 ∧ ∃ made t u, Takes s made t u ∧ rlLoop rounds' t = .ok rest ∧ out = made ++ rest) := by
  cases rounds with
  | zero => cases h
  | succ rounds =>
      rw [rlLoop] at h
      split_ifs at h with hescape
      · obtain ⟨⟨made, t⟩, hmade, h⟩ := bind_ok.mp h
        obtain ⟨rest, hrest, h⟩ := bind_ok.mp h
        obtain ⟨u, hu⟩ := rlEscape_takes hmade
        exact ⟨rounds, rest, rfl, Or.inr ⟨hescape.1, made, t, u, hu, hrest,
          (Except.ok.inj h).symm⟩⟩
      · obtain ⟨rest, hrest, h⟩ := bind_ok.mp h
        exact ⟨rounds, rest, rfl, Or.inl ⟨hescape, hrest, (Except.ok.inj h).symm⟩⟩

/-- What comes out is not longer, and shorter when a backslash is expanded. -/
theorem length_rlLoop {rounds : ℕ} {w out : List UInt8} (h : rlLoop rounds w = .ok out) :
    out.length ≤ w.length ∧ (92 ∈ w.dropLast → out.length < w.length) := by
  induction rounds generalizing w out with
  | zero =>
      cases w with
      | nil =>
          obtain rfl := Except.ok.inj h
          exact ⟨le_rfl, fun hmem => by simp at hmem⟩
      | cons c w => cases h
  | succ rounds ih =>
      cases w with
      | nil =>
          obtain rfl := Except.ok.inj h
          exact ⟨le_rfl, fun hmem => by simp at hmem⟩
      | cons c w =>
          obtain ⟨rounds', rest, hrounds, ⟨hplain, hrest, rfl⟩ | ⟨-, made, t, u, hu, hrest, rfl⟩⟩ :=
            rlLoop_cons h
          · obtain rfl : rounds = rounds' := Nat.succ.inj hrounds
            obtain ⟨hle, hlt⟩ := ih hrest
            refine ⟨Nat.succ_le_succ hle, fun hmem => Nat.succ_lt_succ (hlt ?_)⟩
            cases w with
            | nil => simp at hmem
            | cons d w =>
                rw [List.dropLast_cons_cons, List.mem_cons] at hmem
                exact hmem.resolve_left fun hc => hplain ⟨hc.symm, List.cons_ne_nil _ _⟩
          · obtain rfl : rounds = rounds' := Nat.succ.inj hrounds
            have hle := (ih hrest).1
            have hpos := List.length_pos_of_ne_nil hu.nonempty
            have hmade := hu.length
            have hsplit := congrArg List.length hu.split
            rw [List.length_append] at hsplit
            rw [List.length_append, List.length_cons]
            exact ⟨by omega, fun _ => by omega⟩

/-- **A hidden quote comes out early.**  The first quote of a word comes right after a
backslash; what is made of the text before it is shorter than this text. -/
theorem rlLoop_quote {rounds : ℕ} {before after out : List UInt8}
    (h : rlLoop rounds (before ++ 34 :: after) = .ok out) (hbefore : 34 ∉ before)
    (hlast : before.getLast? = some 92) :
    ∃ made rest, out = made ++ 34 :: rest ∧ made.length < before.length := by
  induction rounds generalizing before out with
  | zero =>
      obtain ⟨c, s, hcons⟩ := List.exists_cons_of_ne_nil
        (show before ++ 34 :: after ≠ [] by simp)
      rw [hcons] at h
      cases h
  | succ rounds ih =>
      obtain ⟨c, before, rfl⟩ := List.exists_cons_of_ne_nil
        (show before ≠ [] by rintro rfl; cases hlast)
      rw [List.cons_append] at h
      have hmem : 34 ∉ before := fun hmem => hbefore (List.mem_cons_of_mem _ hmem)
      obtain ⟨rounds', rest, hrounds, ⟨hplain, hrest, rfl⟩ | ⟨rfl, made, t, u, hu, hrest, rfl⟩⟩ :=
        rlLoop_cons h
      · obtain rfl : rounds = rounds' := Nat.succ.inj hrounds
        -- a character that stands for itself is not the last one, which is a backslash
        have hne : before ≠ [] := by
          rintro rfl
          exact hplain ⟨Option.some.inj hlast, List.cons_ne_nil _ _⟩
        rw [List.getLast?_cons_of_ne_nil hne] at hlast
        obtain ⟨made, rest', rfl, hlt⟩ := ih hrest hmem hlast
        exact ⟨c :: made, rest', rfl, Nat.succ_lt_succ hlt⟩
      · obtain rfl : rounds = rounds' := Nat.succ.inj hrounds
        have hpos := List.length_pos_of_ne_nil hu.nonempty
        have hmade := hu.length
        -- the escape ends before the quote
        have hends : ∀ v, before = u ++ v → t = v ++ 34 :: after →
            ∃ made' rest', made ++ rest = made' ++ 34 :: rest' ∧
              made'.length < (92 :: before).length := by
          rintro v rfl rfl
          rw [List.length_cons, List.length_append]
          rcases List.eq_nil_or_concat v with rfl | ⟨v', d, rfl⟩
          · obtain ⟨_, rest', -, ⟨-, -, rfl⟩ | ⟨hslash, -⟩⟩ := rlLoop_cons hrest
            · exact ⟨made, rest', rfl, by omega⟩
            · exact absurd hslash (by decide)
          · have hlast' : (v'.concat d).getLast? = some 92 := by
              rw [← hlast, ← List.cons_append, List.getLast?_append_of_ne_nil _ (by simp)]
            obtain ⟨made', rest', rfl, hlt⟩ := ih hrest
              (fun h34 => hmem (List.mem_append_right _ h34)) hlast'
            exact ⟨made ++ made', rest', by rw [List.append_assoc],
              by rw [List.length_append]; omega⟩
        rcases List.append_eq_append_iff.mp hu.split with ⟨v, rfl, hv⟩ | ⟨v, hv, ht⟩
        · cases v with
          | nil => exact hends [] (by simp) hv.symm
          | cons d v =>
              -- the escape takes the quote along
              rw [List.cons_append] at hv
              obtain ⟨rfl, -⟩ := List.cons.inj hv
              rcases hu.quote (by simp) with ⟨-, rfl⟩ | ⟨d, hcaret⟩
              · exact ⟨[], rest, rfl, Nat.succ_pos _⟩
              · -- after a caret, the character before the quote is this caret
                obtain rfl : before = [94] := by
                  rcases before with - | ⟨e, - | ⟨f, before⟩⟩
                  · exact absurd (List.cons.inj hcaret).1 (by decide)
                  · rw [(List.cons.inj hcaret).1]
                  · have hlength := congrArg List.length hcaret
                    simp at hlength
                exact absurd hlast (by decide)
        · exact hends v hv ht

/-! ## Finding the closing quote -/

theorem readChars_cr (chars : List UInt8) (tab : ℕ) : readChars (13 :: chars) tab =
    if nextChar ⟨chars, tab⟩ = 10 then readChars chars tab else (10, ⟨chars, 0⟩) := by
  rw [readChars, if_pos (by decide)]
  rfl

/-- Carriage returns before a newline are skipped. -/
theorem readChars_return (s rest : List UInt8) (tab : ℕ) : ∃ skipped s' tab',
    s = skipped ++ s' ∧ 34 ∉ skipped ∧
      readChars (13 :: (s ++ 34 :: rest)) tab = (10, ⟨s' ++ 34 :: rest, tab'⟩) := by
  induction s generalizing tab with
  | nil => exact ⟨[], [], 0, rfl, List.not_mem_nil, rfl⟩
  | cons c s ih =>
      by_cases hcr : c = 13
      · obtain ⟨skipped, s', tab', rfl, hskipped, heq⟩ := ih tab
        refine ⟨13 :: skipped, s', tab', by rw [hcr]; rfl, ?_, ?_⟩
        · exact List.not_mem_cons_of_ne_of_not_mem (by decide) hskipped
        · rw [hcr, List.cons_append, readChars_cr]
          exact (if_pos rfl).trans heq
      · by_cases hnl : c = 10
        · refine ⟨[10], s, tabAfter 10 tab, by rw [hnl]; rfl, by decide, ?_⟩
          rw [hnl, List.cons_append, readChars_cr]
          exact if_pos rfl
        · refine ⟨[], c :: s, 0, rfl, List.not_mem_nil, ?_⟩
          rw [readChars_cr, List.cons_append, nextChar_cons hcr, if_neg hnl]

/-- What may become of a string that starts at the position `off` of the buffer: it is taken as
it is, it comes out shorter, or the word goes on over a quote. -/
inductive Word (off : ℕ) (s w : List UInt8) : Prop
  | whole : w = s → (∀ c ∈ s, Literal c) → s = [] ∨ off + s.length ≤ stringBuffer - 2 → Word off s w
  | shorter : w.length < s.length → Word off s w
  | expanded : w.length ≤ s.length → 92 ∈ w.dropLast → Word off s w
  | beyond (before after : List UInt8) : w = before ++ 34 :: after → 34 ∉ before →
      before.getLast? = some 92 → before.length ≤ s.length → 34 ∉ s.take before.length → Word off s w

theorem Word.literal {off : ℕ} {c : UInt8} {s w : List UInt8} (hc : Literal c)
    (hoff : off < stringBuffer - 2) (h : Word (off + 1) s w) : Word off (c :: s) (c :: w) := by
  cases h with
  | whole hw hs hfits =>
      refine .whole (by rw [hw]) (List.forall_mem_cons.mpr ⟨hc, hs⟩) (Or.inr ?_)
      rw [List.length_cons]
      rcases hfits with rfl | hfits
      · rw [List.length_nil]
        omega
      · omega
  | shorter hlt => exact .shorter (Nat.succ_lt_succ hlt)
  | expanded hle hmem =>
      refine .expanded (Nat.succ_le_succ hle) ?_
      cases w with
      | nil => simp at hmem
      | cons d w =>
          rw [List.dropLast_cons_cons]
          exact List.mem_cons_of_mem _ hmem
  | beyond before after hw hbefore hlast hle htake =>
      have hne : before ≠ [] := by
        rintro rfl
        cases hlast
      refine .beyond (c :: before) after (by rw [hw]; rfl)
        (List.not_mem_cons_of_ne_of_not_mem hc.1.symm hbefore) ?_ (Nat.succ_le_succ hle) ?_
      · rw [List.getLast?_cons_of_ne_nil hne]
        exact hlast
      · rw [List.length_cons, List.take_succ_cons]
        exact List.not_mem_cons_of_ne_of_not_mem hc.1.symm htake

/-- After a backslash and the character that it takes along. -/
theorem Word.pair {off off' : ℕ} {d e : UInt8} {skipped s w : List UInt8} (hd : d ≠ 34) (he : e ≠ 34)
    (hskipped : 34 ∉ skipped) (h : Word off' s w) :
    Word off (92 :: d :: (skipped ++ s)) (92 :: e :: w) := by
  have hexpanded : w.length ≤ s.length → Word off (92 :: d :: (skipped ++ s)) (92 :: e :: w) := by
    intro hle
    refine .expanded ?_ ?_
    · simp only [List.length_cons, List.length_append]
      omega
    · rw [List.dropLast_cons_cons]
      exact List.mem_cons_self
  cases h with
  | whole hw _ _ => exact hexpanded (by rw [hw])
  | shorter hlt => exact hexpanded hlt.le
  | expanded hle _ => exact hexpanded hle
  | beyond before after hw hbefore hlast hle htake =>
      have hne : before ≠ [] := by
        rintro rfl
        cases hlast
      refine .beyond (92 :: e :: before) after (by rw [hw]; rfl) ?_ ?_ ?_ ?_
      · exact List.not_mem_cons_of_ne_of_not_mem (by decide)
          (List.not_mem_cons_of_ne_of_not_mem he.symm hbefore)
      · rw [List.getLast?_cons_cons, List.getLast?_cons_of_ne_nil hne]
        exact hlast
      · simp only [List.length_cons, List.length_append]
        omega
      · rw [List.length_cons, List.length_cons, List.take_succ_cons, List.take_succ_cons,
          List.take_append]
        refine List.not_mem_cons_of_ne_of_not_mem (by decide)
          (List.not_mem_cons_of_ne_of_not_mem hd.symm fun hmem => ?_)
        rcases List.mem_append.mp hmem with hmem | hmem
        · exact hskipped (List.mem_of_mem_take hmem)
        · exact htake ((List.take_prefix_take_left (Nat.sub_le _ _)).subset hmem)

/-- **What `read_word` takes for a string between quotes.** -/
theorem wordString_word {rounds off tab : ℕ} {s rest w : List UInt8} {input : Input}
    (h : wordString rounds off ⟨s ++ 34 :: rest, tab⟩ = .ok (w, input)) : Word off s w := by
  induction hn : s.length using Nat.strong_induction_on generalizing rounds off tab s w input with
  | _ n ih =>
    subst hn
    cases rounds with
    | zero => cases h
    | succ rounds =>
      cases s with
      | nil =>
          rw [List.nil_append, wordString_quote] at h
          obtain ⟨rfl, -⟩ := Prod.mk.inj (Except.ok.inj h)
          exact .whole rfl (List.forall_mem_nil _) (Or.inl rfl)
      | cons c s =>
          rw [wordString] at h
          by_cases hcr : c = 13
          · -- a carriage return is read as a newline, which is a control character
            obtain ⟨skipped, s', tab', -, -, hread⟩ := readChars_return s rest tab
            have hchar : readChar ⟨c :: s ++ 34 :: rest, tab⟩ = (10, ⟨s' ++ 34 :: rest, tab'⟩) := by
              rw [hcr]
              exact hread
            simp only [hchar] at h
            rw [if_neg (by decide), if_pos (by decide)] at h
            cases h
          · simp only [List.cons_append, readChar_cons (show c ≠ ascii '\r' from hcr)] at h
            split_ifs at h with h1 h2 h3 h4 h5
            · obtain ⟨rfl, -⟩ := Prod.mk.inj (Except.ok.inj h)
              exact .shorter (Nat.succ_pos _)
            · -- a backslash, and the character after it
              obtain ⟨⟨word, input'⟩, hword, h⟩ := bind_ok.mp h
              obtain ⟨rfl, -⟩ := Prod.mk.inj (Except.ok.inj h)
              obtain rfl : c = 92 := h4
              cases s with
              | nil => exact .beyond [92] word rfl (by decide) rfl le_rfl (by decide)
              | cons d s =>
                  by_cases hdcr : d = 13
                  · subst hdcr
                    obtain ⟨skipped, s', tab', rfl, hskipped, hread⟩ :=
                      readChars_return s rest (tabAfter 92 tab)
                    have hchar : readChar ⟨13 :: (skipped ++ s') ++ 34 :: rest, tabAfter 92 tab⟩ =
                        (10, ⟨s' ++ 34 :: rest, tab'⟩) := hread
                    rw [hchar] at hword ⊢
                    have hlt : s'.length < (92 :: 13 :: (skipped ++ s')).length := by
                      simp only [List.length_cons, List.length_append]
                      omega
                    exact (ih s'.length hlt hword rfl).pair (by decide)
                      (show (10 : UInt8) ≠ 34 by decide) hskipped
                  · rw [List.cons_append, readChar_cons hdcr] at hword ⊢
                    by_cases hquote : d = 34
                    · rw [hquote]
                      exact .beyond [92] word rfl (by decide) rfl (Nat.succ_pos _)
                        (show (34 : UInt8) ∉ [92] by decide)
                    · have hlt : s.length < (92 :: d :: s).length := by
                        simp only [List.length_cons]
                        omega
                      exact (ih s.length hlt hword rfl).pair hquote hquote List.not_mem_nil
            · obtain ⟨⟨word, input'⟩, hword, h⟩ := bind_ok.mp h
              obtain ⟨rfl, -⟩ := Prod.mk.inj (Except.ok.inj h)
              exact (ih s.length (Nat.lt_succ_self _) hword rfl).literal
                ⟨fun hc => h1 (Or.inl hc), h4, fun hc => h1 (Or.inr hc), h2⟩ h3

/-! ## Strings -/

theorem rlLoop_literal {s : List UInt8} (hs : ∀ c ∈ s, Literal c) (rounds : ℕ)
    (hrounds : s.length ≤ rounds) : rlLoop rounds s = .ok s := by
  induction s generalizing rounds with
  | nil => cases rounds <;> rfl
  | cons c s ih =>
      obtain ⟨hc, hs⟩ := List.forall_mem_cons.mp hs
      obtain ⟨rounds, rfl⟩ : ∃ k, rounds = k + 1 :=
        Nat.exists_eq_succ_of_ne_zero (Nat.ne_of_gt ((Nat.succ_pos _).trans_le hrounds))
      rw [rlLoop, if_neg fun h => hc.2.1 h.1, ih hs rounds (Nat.le_of_succ_le_succ hrounds)]
      rfl

theorem Literal.ne_zero {c : UInt8} (hc : Literal c) : c ≠ 0 := by
  rintro rfl
  exact hc.2.2.2 (by decide)

/-- A word between quotes that is taken as it is. -/
theorem wordString_literal {s : List UInt8} (hs : ∀ c ∈ s, Literal c) (rest : List UInt8)
    (rounds off tab : ℕ) (hoff : off + s.length ≤ stringBuffer - 2) (hrounds : s.length < rounds) :
    ∃ tab', wordString rounds off ⟨s ++ 34 :: rest, tab⟩ = .ok (s, ⟨rest, tab'⟩) := by
  induction s generalizing rounds off tab with
  | nil =>
      obtain ⟨rounds, rfl⟩ := Nat.exists_eq_add_of_lt hrounds
      exact ⟨_, wordString_quote⟩
  | cons c s ih =>
      obtain ⟨hc, hs⟩ := List.forall_mem_cons.mp hs
      rw [List.length_cons] at hoff hrounds
      obtain ⟨rounds, rfl⟩ : ∃ k, rounds = k + 1 := ⟨rounds - 1, by omega⟩
      obtain ⟨tab', heq⟩ := ih hs rounds (off + 1) (tabAfter c tab) (by omega) (by omega)
      have hcr : c ≠ ascii '\r' := by
        rintro rfl
        exact hc.2.2.2 (by decide)
      refine ⟨tab', ?_⟩
      rw [List.cons_append, wordString, readChar_cons hcr]
      simp only [if_neg (show ¬(c = ascii '\"' ∨ c = eof) from not_or.mpr ⟨hc.1, hc.2.2.1⟩),
        if_neg hc.2.2.2, if_pos (show off < stringBuffer - 2 by omega),
        if_neg (show ¬c = ascii '\\' from hc.2.1), heq]
      rfl

/-- A text is not read as a tree. -/
def Misreads (caseSensitive : Bool) (text : List UInt8) (t : Tree) : Prop :=
  ∀ rest tab word input, readWord initCharMap caseSensitive ⟨text ++ rest, tab⟩ = .ok (word, input) →
    Ordinary word ∧ ∀ rounds t' input', text.length < rounds →
      rlRead initCharMap caseSensitive rounds word input = .ok (t', input') → t' ≠ t

theorem ordinary_quote (w : List UInt8) : Ordinary (34 :: w) :=
  ⟨List.cons_ne_nil _ _, fun h => absurd (List.cons.inj h).1 (by decide),
    fun h => absurd (List.cons.inj h).1 (by decide),
    fun h => absurd (Option.some.inj h) (by decide)⟩

/-- `rl_read` of a word that begins with a quote. -/
theorem rlRead_quote (rounds : ℕ) (w : List UInt8) (input : Input) :
    rlRead initCharMap caseSensitive (rounds + 1) (34 :: w) input = (do
      let out ← rlLoop w.length w
      .ok (.string (out.takeWhile (· ≠ 0)), input)) := by
  have hmap : (initCharMap 34).binary = false ∧ (initCharMap 34).mchar = false := by decide
  have hne : (34 : UInt8) ≠ ascii '^' ∧ (34 : UInt8) ≠ ascii '#' := by decide
  rw [rlRead, if_neg (fun h => absurd (List.cons.inj h).1 (by decide)),
    if_neg (fun h => absurd (List.cons.inj h).1 (by decide))]
  simp only [rlAtom, List.headD_cons, hmap, hne, List.tail_cons, rlString]
  cases rlLoop w.length w <;> rfl

/-- A string that can be written between quotes is read back. -/
theorem readsBack_quoted {s : List UInt8} (h : Quotable s) :
    ReadsBack caseSensitive (quoted s) (.string s) := by
  intro rest _ tab rounds hrounds
  have hlength := h.fits
  obtain ⟨tab', hword⟩ := wordString_literal h.literal rest stringBuffer 1 (tabAfter 34 tab)
    (by omega) (by omega)
  obtain ⟨rounds, rfl⟩ : ∃ k, rounds = k + 1 := ⟨rounds - 1, by omega⟩
  refine ⟨34 :: s, ⟨rest, tab'⟩, tab', ?_, ordinary_quote s, ?_⟩
  · have htext : quoted s ++ rest = 34 :: (s ++ 34 :: rest) := by simp [quoted]
    rw [htext, readWord_quote, hword]
    rfl
  · have hnonzero : s.takeWhile (· ≠ 0) = s :=
      List.takeWhile_eq_self_iff.mpr fun c hc => decide_eq_true (h.literal c hc).ne_zero
    rw [rlRead_quote, rlLoop_literal h.literal _ le_rfl]
    simp only [Bind.bind, Except.bind, hnonzero]

/-- **Another string is not read back.** -/
theorem misreads_quoted {s : List UInt8} (h : ¬Quotable s) :
    Misreads caseSensitive (quoted s) (.string s) := by
  intro rest tab word input hread
  have htext : quoted s ++ rest = 34 :: (s ++ 34 :: rest) := by simp [quoted]
  rw [htext, readWord_quote] at hread
  obtain ⟨⟨w, input'⟩, hword, hread⟩ := bind_ok.mp hread
  obtain ⟨rfl, rfl⟩ := Prod.mk.inj (Except.ok.inj hread)
  refine ⟨ordinary_quote w, fun rounds t' input'' _ hatom => ?_⟩
  cases rounds with
  | zero => cases hatom
  | succ rounds =>
    rw [rlRead_quote] at hatom
    obtain ⟨out, hout, hatom⟩ := bind_ok.mp hatom
    obtain ⟨rfl, -⟩ := Prod.mk.inj (Except.ok.inj hatom)
    intro heq
    have hprefix : s <+: out := by
      rw [← Tree.string.inj heq]
      exact List.takeWhile_prefix _
    obtain ⟨hle, hlt⟩ := length_rlLoop hout
    have hlength := hprefix.length_le
    cases wordString_word hword with
    | whole hw hs hfits =>
        refine h ⟨hs, ?_⟩
        rcases hfits with rfl | hfits
        · decide
        · omega
    | shorter hshort => omega
    | expanded hshort hmem =>
        have := hlt hmem
        omega
    | beyond before after hw hbefore hlast hbound htake =>
        rw [hw] at hout
        obtain ⟨made, rest', rfl, hmade⟩ := rlLoop_quote hout hbefore hlast
        -- the string has the quote that comes out, before the place that it has in the word
        have hquote : made ++ [34] <+: s := by
          refine List.prefix_of_prefix_length_le ⟨rest', by simp⟩ hprefix ?_
          rw [List.length_append, List.length_singleton]
          omega
        obtain ⟨more, rfl⟩ := hquote
        have hmem : 34 ∈ ((made ++ [34] ++ more).take before.length).take (made.length + 1) := by
          rw [List.take_take, min_eq_left (Nat.succ_le_of_lt hmade), List.take_left' (by simp)]
          simp
        exact htake (List.mem_of_mem_take hmem)

/-! ## Lists -/

/-- A text is read as a tree exactly when something holds. -/
structure Judged (caseSensitive : Bool) (good : Prop) (text : List UInt8) (t : Tree) : Prop where
  reads : good → ReadsBack caseSensitive text t
  misreads : ¬good → Misreads caseSensitive text t

/-- **A string between quotes.** -/
theorem judged_quoted (s : List UInt8) :
    Judged caseSensitive (Quotable s) (quoted s) (.string s) :=
  ⟨readsBack_quoted, misreads_quoted⟩

/-- Texts with a space between them. -/
def spaced (texts : List (List UInt8)) : List UInt8 := List.intercalate [ascii ' '] texts

/-- The text of a list, from the texts of its elements. -/
def parens (texts : List (List UInt8)) : List UInt8 := ascii '(' :: (spaced texts ++ [ascii ')'])

/-- What comes after an element of a list. -/
def remaining : List (List UInt8) → List UInt8
  | [] => [ascii ')']
  | text :: texts => ascii ' ' :: (text ++ remaining texts)

theorem spaced_cons (text : List UInt8) (texts : List (List UInt8)) :
    spaced (text :: texts) ++ [ascii ')'] = text ++ remaining texts := by
  induction texts generalizing text with
  | nil => simp [spaced, remaining]
  | cons text' texts ih =>
      rw [remaining, ← ih text', spaced, List.intercalate_cons_cons, spaced]
      simp

theorem length_remaining (texts : List (List UInt8)) : 0 < (remaining texts).length := by
  cases texts <;> exact Nat.succ_pos _

theorem ends_remaining (texts : List (List UInt8)) (rest : List UInt8) :
    Ends (remaining texts ++ rest) := by
  have hspace : isSpace (ascii ' ') = true := by decide
  have hclose : (initCharMap (ascii ')')).interword = true := by decide
  cases texts <;> rintro _ ⟨⟩
  exacts [Or.inl hclose, Or.inr (Or.inl hspace)]

/-- The text after a cell is not read as the tree in its `Cdr`. -/
def TailMisreads (caseSensitive : Bool) (text : List UInt8) (t : Tree) : Prop :=
  ∀ rest tab rounds t' input, text.length < rounds →
    rlCells initCharMap caseSensitive rounds ⟨text ++ rest, tab⟩ = .ok (t', input) → t' ≠ t

theorem TailMisreads.space {text : List UInt8} {t : Tree} (h : TailMisreads caseSensitive text t) :
    TailMisreads caseSensitive (ascii ' ' :: text) t := by
  intro rest tab rounds t' input hrounds hcells
  rw [List.cons_append, rlCells_space] at hcells
  exact h rest _ rounds t' input (by rw [List.length_cons] at hrounds; omega) hcells

theorem TailMisreads.list {text : List UInt8} {t : Tree} (h : TailMisreads caseSensitive text t) :
    Misreads caseSensitive (ascii '(' :: text) t := by
  intro rest tab word input hword
  rw [List.cons_append, readWord_paren (Or.inl rfl)] at hword
  obtain ⟨rfl, rfl⟩ := Prod.mk.inj (Except.ok.inj hword)
  refine ⟨by unfold Ordinary; decide, fun rounds t' input' hrounds hread => ?_⟩
  rw [List.length_cons] at hrounds
  obtain ⟨rounds, rfl⟩ : ∃ k, rounds = k + 1 := ⟨rounds - 1, by omega⟩
  rw [rlRead, if_neg (by decide), if_pos rfl] at hread
  exact h rest _ rounds t' input' (by omega) hread

variable {text : List UInt8} {texts : List (List UInt8)} {t t' : Tree}

/-- An element is not read back. -/
theorem TailMisreads.head (h : Misreads caseSensitive text t) :
    TailMisreads caseSensitive (text ++ remaining texts) (.cons t t') := by
  intro rest tab rounds u input hrounds hcells
  have htail := length_remaining texts
  rw [List.length_append] at hrounds
  obtain ⟨rounds, rfl⟩ : ∃ k, rounds = k + 1 := ⟨rounds - 1, by omega⟩
  rw [List.append_assoc, rlCells] at hcells
  obtain ⟨⟨word, input1⟩, hword, hcells⟩ := bind_ok.mp hcells
  obtain ⟨⟨hne, hclose, hdot, hdieze⟩, hread⟩ := h _ _ _ _ hword
  simp only [if_neg hne, if_neg hclose, if_neg hdot, if_neg hdieze] at hcells
  obtain ⟨⟨car, input2⟩, hcar, hcells⟩ := bind_ok.mp hcells
  obtain ⟨⟨cdr, input3⟩, -, hcells⟩ := bind_ok.mp hcells
  obtain ⟨rfl, -⟩ := Prod.mk.inj (Except.ok.inj hcells)
  intro heq
  exact hread rounds car input2 (by omega) hcar (Tree.cons.inj heq).1

/-- What comes after an element is not read back. -/
theorem TailMisreads.tail (h : ReadsBack caseSensitive text t)
    (h' : TailMisreads caseSensitive (remaining texts) t') :
    TailMisreads caseSensitive (text ++ remaining texts) (.cons t t') := by
  intro rest tab rounds u input hrounds hcells
  have htext := h.length_pos
  have htail := length_remaining texts
  rw [List.length_append] at hrounds
  obtain ⟨rounds, rfl⟩ : ∃ k, rounds = k + 1 := ⟨rounds - 1, by omega⟩
  obtain ⟨word, input1, tab', hword, ⟨hne, hclose, hdot, hdieze⟩, hread⟩ :=
    h (remaining texts ++ rest) (ends_remaining texts rest) tab rounds (by omega)
  rw [List.append_assoc, rlCells, hword] at hcells
  simp only [Bind.bind, Except.bind, if_neg hne, if_neg hclose, if_neg hdot, if_neg hdieze,
    hread] at hcells
  obtain ⟨⟨cdr, input2⟩, hcdr, hcells⟩ := bind_ok.mp hcells
  obtain ⟨rfl, -⟩ := Prod.mk.inj (Except.ok.inj hcells)
  intro heq
  exact h' rest tab' rounds cdr input2 (by omega) hcdr (Tree.cons.inj heq).2

/-- A text, the tree that it should be read as, and when it is. -/
structure Item where
  good : Prop
  text : List UInt8
  tree : Tree

theorem judged_remaining {items : List Item}
    (h : ∀ x ∈ items, Judged caseSensitive x.good x.text x.tree) :
    ((∀ x ∈ items, x.good) → TailReadsBack caseSensitive (remaining (items.map Item.text))
        (.list (items.map Item.tree))) ∧
      (¬(∀ x ∈ items, x.good) → TailMisreads caseSensitive (remaining (items.map Item.text))
        (.list (items.map Item.tree))) := by
  induction items with
  | nil => exact ⟨fun _ => .nil, fun hbad => absurd (List.forall_mem_nil _) hbad⟩
  | cons x items ih =>
      obtain ⟨hx, hitems⟩ := List.forall_mem_cons.mp h
      obtain ⟨hreads, hmisreads⟩ := ih hitems
      rw [List.map_cons, List.map_cons, remaining, Tree.list, List.forall_mem_cons]
      refine ⟨fun hgood => ?_, fun hbad => ?_⟩
      · exact (TailReadsBack.cons (hx.reads hgood.1) (hreads hgood.2) (ends_remaining _)).space
      · by_cases hfirst : x.good
        · exact (TailMisreads.tail (hx.reads hfirst)
            (hmisreads fun hall => hbad ⟨hfirst, hall⟩)).space
        · exact (TailMisreads.head (hx.misreads hfirst)).space

/-- **The text of a list** is read as the list exactly when its elements are. -/
theorem judged_parens {items : List Item}
    (h : ∀ x ∈ items, Judged caseSensitive x.good x.text x.tree) :
    Judged caseSensitive (∀ x ∈ items, x.good) (parens (items.map Item.text))
      (.list (items.map Item.tree)) := by
  cases items with
  | nil => exact ⟨fun _ => TailReadsBack.nil.list, fun hbad => absurd (List.forall_mem_nil _) hbad⟩
  | cons x items =>
      obtain ⟨hx, hitems⟩ := List.forall_mem_cons.mp h
      obtain ⟨hreads, hmisreads⟩ := judged_remaining hitems
      rw [List.map_cons, List.map_cons, parens, spaced_cons, Tree.list, List.forall_mem_cons]
      refine ⟨fun hgood => ?_, fun hbad => ?_⟩
      · exact (TailReadsBack.cons (hx.reads hgood.1) (hreads hgood.2) (ends_remaining _)).list
      · by_cases hfirst : x.good
        · exact (TailMisreads.tail (hx.reads hfirst)
            (hmisreads fun hall => hbad ⟨hfirst, hall⟩)).list
        · exact (TailMisreads.head (hx.misreads hfirst)).list

/-- The text of a list of elements of one kind. -/
theorem judged_map {α : Type} {l : List α} {good : α → Prop} {text : α → List UInt8}
    {tree : α → Tree} (h : ∀ a ∈ l, Judged caseSensitive (good a) (text a) (tree a)) :
    Judged caseSensitive (∀ a ∈ l, good a) (parens (l.map text)) (.list (l.map tree)) := by
  have hitems := judged_parens
    (show ∀ x ∈ l.map fun a => (⟨good a, text a, tree a⟩ : Item),
      Judged caseSensitive x.good x.text x.tree by simpa using h)
  simpa [Function.comp_def] using hitems

/-- A text with what is known of it. -/
def Judged.item {good : Prop} (_ : Judged caseSensitive good text t) : Item := ⟨good, text, t⟩

theorem Judged.congr {p q : Prop} (h : Judged caseSensitive p text t) (hpq : p ↔ q) :
    Judged caseSensitive q text t := by
  rw [← hpq]
  exact h

theorem judged_of_readsBack (h : ReadsBack caseSensitive text t) :
    Judged caseSensitive True text t :=
  ⟨fun _ => h, fun hfalse => absurd trivial hfalse⟩

theorem begins_parens (texts : List (List UInt8)) : Begins (parens texts) :=
  ⟨_, _, rfl, by decide⟩

/-- **`read` on such a text.** -/
theorem Judged.readSexp_iff {good : Prop} (h : Judged caseSensitive good text t)
    (hbegins : Begins text) : readSexp caseSensitive text = .ok t ↔ good := by
  obtain ⟨c, s, htext, hcr, hcomment, hspace, hclose⟩ := hbegins
  have hskip : skipClosing (text.length + 1) ⟨text, 0⟩ = ⟨text, 0⟩ := by
    rw [htext, skipClosing, skipToExpr_self _ hcr hcomment hspace]
    simp only [nextChar_cons hcr, if_neg hclose]
  constructor
  · intro hok
    by_contra hbad
    obtain ⟨⟨t', input'⟩, hlist, hok⟩ := bind_ok.mp hok
    obtain rfl := Except.ok.inj hok
    rw [readList] at hlist
    simp only [hskip] at hlist
    obtain ⟨⟨word, input⟩, hword, hatom⟩ := bind_ok.mp hlist
    rw [← List.append_nil text] at hword
    exact ((h.misreads hbad) [] 0 word input hword).2 _ t' input' (by omega) hatom rfl
  · intro hgood
    obtain ⟨word, input, tab', hword, -, hatom⟩ :=
      h.reads hgood [] (by simp [Ends]) 0 (2 * text.length + 2) (by omega)
    rw [List.append_nil] at hword
    rw [readSexp, readList]
    simp only [hskip, hword, hatom, Bind.bind, Except.bind]

end Lush.Text
