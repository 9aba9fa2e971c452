import Mathlib

/-!
# Errors and C strings

What all parts of the program share: how a function ends when it does not
return, and strings of bytes that end with a zero.
-/

namespace Lush

/-- How an operation ends when it does not succeed. -/
inductive Fault
  /-- The recursion bound of the model was reached. -/
  | depth
  /-- `error(..)`, with its text. -/
  | error (text : String)
  /-- The C code would read or write outside of its arrays. -/
  | undefined
  /-- The program goes on in a part that is not modelled. -/
  | unmodelled
deriving DecidableEq

theorem bind_ok {α β : Type} {x : Except Fault α} {f : α → Except Fault β} {b : β} :
    (x >>= f) = .ok b ↔ ∃ a, x = .ok a ∧ f a = .ok b := by
  cases x <;> simp [Bind.bind, Except.bind]

/-- What is found for every element of a list. -/
theorem mapM_ok_iff {α β : Type} {f : α → Except Fault β} {l : List α} {l' : List β} :
    l.mapM f = .ok l' ↔ List.Forall₂ (fun a b => f a = .ok b) l l' := by
  induction l generalizing l' with
  | nil =>
      rw [List.mapM_nil, List.forall₂_nil_left_iff]
      exact ⟨fun h => (Except.ok.inj h).symm, fun h => h ▸ rfl⟩
  | cons a l ih =>
      rw [List.mapM_cons, List.forall₂_cons_left_iff]
      constructor
      · intro h
        obtain ⟨b, hb, h⟩ := bind_ok.mp h
        obtain ⟨bs, hbs, h⟩ := bind_ok.mp h
        exact ⟨b, bs, hb, ih.mp hbs, (Except.ok.inj h).symm⟩
      · rintro ⟨b, bs, hb, hbs, rfl⟩
        rw [hb, ih.mpr hbs]
        rfl

theorem exists_of_mapM {α β : Type} {f : α → Except Fault β} {l : List α} {l' : List β}
    (h : l.mapM f = .ok l') {b : β} (hb : b ∈ l') : ∃ a ∈ l, f a = .ok b := by
  obtain ⟨i, hi, rfl⟩ := List.getElem_of_mem hb
  obtain ⟨hlen, hall⟩ := List.forall₂_iff_get.mp (mapM_ok_iff.mp h)
  have hi' : i < l.length := hlen ▸ hi
  exact ⟨l[i], List.getElem_mem hi', hall i hi' hi⟩

/-- Elements are compared one after the other. -/
instance decidableMem {α : Type*} [DecidableEq α] (a : α) (s : List α) : Decidable (a ∈ s) :=
  inferInstance

/-- `STRING_BUFFER`. -/
def stringBuffer : ℕ := 4096

/-- The contents of a C string, without the closing zero. -/
structure CString where
  bytes : List UInt8
  nonzero : 0 ∉ bytes
deriving DecidableEq

/-- The C string at the start of a buffer. -/
def cstring (buffer : List UInt8) : CString where
  bytes := buffer.takeWhile (· ≠ 0)
  nonzero h := by simpa using List.mem_takeWhile_imp h

/-- `(concat s1 s2)`. -/
def CString.append (s1 s2 : CString) : CString where
  bytes := s1.bytes ++ s2.bytes
  nonzero := fun h => (List.mem_append.mp h).elim s1.nonzero s2.nonzero

@[simp] theorem cstring_bytes (s : CString) : cstring s.bytes = s := by
  obtain ⟨bytes, hnonzero⟩ := s
  have hall : ∀ b ∈ bytes, b ≠ 0 := fun b hb h0 => hnonzero (h0 ▸ hb)
  simpa [cstring] using hall

end Lush
