import Mathlib

/-!
# Texts in UTF-8

A row of bytes is in UTF-8 when it is the code of some characters.  The code of a character is
one byte below `0x80`, or bytes that are all above; so a text can be cut at each ASCII byte
(`utf8_append_cons_iff`).
-/

namespace Lush.Unicode

/-- The bytes of some characters. -/
def Utf8 (s : List UInt8) : Prop := ∃ cs : List Char, s = cs.flatMap String.utf8EncodeChar

variable {a b s : List UInt8} {c : UInt8}

theorem utf8_nil : Utf8 [] := ⟨[], rfl⟩

theorem Utf8.append (ha : Utf8 a) (hb : Utf8 b) : Utf8 (a ++ b) := by
  obtain ⟨cs, rfl⟩ := ha
  obtain ⟨ds, rfl⟩ := hb
  exact ⟨cs ++ ds, List.flatMap_append.symm⟩

/-- A byte is an ASCII character or none. -/
theorem utf8EncodeChar_bytes (ch : Char) :
    (∃ c : UInt8, c < 0x80 ∧ String.utf8EncodeChar ch = [c]) ∨
      ∀ c ∈ String.utf8EncodeChar ch, 0x80 ≤ c := by
  have hle : ∀ n : ℕ, 0x80 ≤ n → n < 0x100 → (0x80 : UInt8) ≤ UInt8.ofNat n := by
    intro n hn hlt
    rw [UInt8.le_iff_toNat_le, UInt8.toNat_ofNat_of_lt' hlt]
    exact hn
  unfold String.utf8EncodeChar
  simp only
  split_ifs with h₁ h₂ h₃
  · refine .inl ⟨_, ?_, rfl⟩
    have hlt : ch.val.toNat < UInt8.size := lt_of_le_of_lt h₁ (by decide)
    rw [UInt8.lt_iff_toNat_lt, UInt8.toNat_ofNat_of_lt' hlt]
    exact Nat.lt_succ_of_le h₁
  all_goals
    refine .inr fun c hc => ?_
    simp only [List.mem_cons, List.not_mem_nil, or_false] at hc
    rcases hc with rfl | rfl | rfl | rfl <;> exact hle _ (by omega) (by omega)

theorem utf8_singleton (hc : c < 0x80) : Utf8 [c] := by
  have hlt : c.toNat < 0x80 := UInt8.lt_iff_toNat_lt.mp hc
  have hvalid : c.toNat.isValidChar := .inl (by omega)
  have hval : (Char.ofNat c.toNat).val.toNat = c.toNat := by
    rw [← Char.toNat, Char.toNat_ofNat, if_pos hvalid]
  refine ⟨[Char.ofNat c.toNat], ?_⟩
  rw [List.flatMap_singleton, String.utf8EncodeChar]
  simp only [hval]
  rw [if_pos (by omega), UInt8.ofNat_toNat]

theorem utf8_cons_iff (hc : c < 0x80) : Utf8 (c :: s) ↔ Utf8 s := by
  constructor
  · rintro ⟨cs, hcs⟩
    cases cs with
    | nil => exact absurd hcs (List.cons_ne_nil _ _)
    | cons ch cs =>
        rw [List.flatMap_cons] at hcs
        rcases utf8EncodeChar_bytes ch with ⟨c', -, hch⟩ | hch
        · rw [hch] at hcs
          exact ⟨cs, (List.cons.inj hcs).2⟩
        · cases hbytes : String.utf8EncodeChar ch with
          | nil => exact absurd hbytes String.utf8EncodeChar_ne_nil
          | cons c' bytes =>
              rw [hbytes, List.cons_append] at hcs
              obtain ⟨rfl, -⟩ := List.cons.inj hcs
              have hle := hch c (hbytes ▸ List.mem_cons_self)
              exact absurd hc (UInt8.not_lt.mpr hle)
  · exact fun hs => (utf8_singleton hc).append hs

/-- **A text is cut at an ASCII byte.** -/
theorem utf8_append_cons_iff (hc : c < 0x80) : Utf8 (a ++ c :: b) ↔ Utf8 a ∧ Utf8 b := by
  constructor
  · rintro ⟨cs, hcs⟩
    induction cs generalizing a with
    | nil => exact absurd hcs (by simp)
    | cons ch cs ih =>
        rw [List.flatMap_cons] at hcs
        rcases List.append_eq_append_iff.mp hcs with ⟨a', hch, hrest⟩ | ⟨a', rfl, hrest⟩
        · cases a' with
          | nil =>
              rw [List.append_nil] at hch
              rw [List.nil_append] at hrest
              refine ⟨⟨[ch], ?_⟩, (utf8_cons_iff hc).mp ⟨cs, hrest⟩⟩
              rw [List.flatMap_singleton, hch]
          | cons c' a' =>
              obtain ⟨rfl, htail⟩ := List.cons.inj hrest
              -- An ASCII byte is a character of its own.
              rcases utf8EncodeChar_bytes ch with ⟨c', -, hone⟩ | hbytes
              · have hnil : a = [] ∧ a' = [] := by
                  have hlength := congrArg List.length (hone.symm.trans hch)
                  simp only [List.length_append, List.length_cons, List.length_nil] at hlength
                  exact ⟨List.length_eq_zero_iff.mp (by omega), List.length_eq_zero_iff.mp (by omega)⟩
                obtain ⟨rfl, rfl⟩ := hnil
                exact ⟨utf8_nil, ⟨cs, htail⟩⟩
              · have hle := hbytes c (hch ▸ List.mem_append_right _ List.mem_cons_self)
                exact absurd hc (UInt8.not_lt.mpr hle)
        · obtain ⟨ha, hb⟩ := ih hrest.symm
          exact ⟨Utf8.append ⟨[ch], (List.flatMap_singleton _ _).symm⟩ ha, hb⟩
  · rintro ⟨ha, hb⟩
    exact ha.append ((utf8_cons_iff hc).mpr hb)

/-- Texts are joined where the second starts with an ASCII byte. -/
theorem utf8_append_iff (hb : ∀ c ∈ b.head?, c < 0x80) : Utf8 (a ++ b) ↔ Utf8 a ∧ Utf8 b := by
  cases b with
  | nil => rw [List.append_nil, and_iff_left utf8_nil]
  | cons c b =>
      have hc := hb c rfl
      rw [utf8_append_cons_iff hc, utf8_cons_iff hc]

end Lush.Unicode
