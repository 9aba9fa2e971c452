import Lush.Equality

/-!
# Structures without a cycle

The values that are used as keys, and those that are printed to be read again,
unfold to finite trees.  The functions that go through them, such as `hash_value`
and `print_list`, guard themselves against cycles with a slow pointer and a
stack.  On these values, neither cuts anything off (`Cursor.uncut`).
-/

namespace Lush

variable {ν : Type}

/-! ## Trees -/

/-- What a key unfolds to. -/
inductive Tree
  | nil
  | number (x : BitVec 64)
  | string (s : List UInt8)
  | symbol (name : List UInt8)
  | cons (car cdr : Tree)

/-- The number of objects on the longest path. -/
def Tree.height : Tree → ℕ
  | .nil => 0
  | .cons car cdr => max car.height cdr.height + 1
  | .number _ | .string _ | .symbol _ => 1

/-- A value built from numbers, strings, symbols and cells, with the tree it
unfolds to. -/
inductive Reads (heap : ν → Object (Option ν)) : Option ν → Tree → Prop
  | nil : Reads heap none .nil
  | number {a : ν} {x : BitVec 64} : heap a = .number x → Reads heap (some a) (.number x)
  | string {a : ν} {s : CString} : heap a = .string s → Reads heap (some a) (.string s.bytes)
  | symbol {a : ν} {name : SymbolName} : heap a = .symbol name →
      Reads heap (some a) (.symbol name.bytes)
  | cons {a : ν} {car cdr : Option ν} {t t' : Tree} : heap a = .cons car cdr → Reads heap car t →
      Reads heap cdr t' → Reads heap (some a) (.cons t t')

section Reads

variable {heap : ν → Object (Option ν)} {p q : Option ν} {t u : Tree}

theorem Reads.not_zombie {a : ν} (h : Reads heap (some a) t) : heap a ≠ .zombie := by
  intro hz
  cases h with
  | number ha | string ha | symbol ha | cons ha _ _ => simp [hz] at ha

theorem acyclic_of_leaf {a : ν} (h : (heap a).children = []) : Acyclic heap (some a) := by
  refine Acc.intro _ fun q hq => ?_
  obtain ⟨b, hb, hmem⟩ := hq
  cases hb
  simp [h] at hmem

/-- Such a value has no cycle. -/
theorem Reads.acyclic (h : Reads heap p t) : Acyclic heap p := by
  induction h with
  | nil => exact Acc.intro _ fun q ⟨a, ha, _⟩ => by simp at ha
  | number ha => exact acyclic_of_leaf (by simp [ha, Object.children])
  | string ha => exact acyclic_of_leaf (by simp [ha, Object.children])
  | symbol ha => exact acyclic_of_leaf (by simp [ha, Object.children])
  | @cons a car cdr t t' ha _ _ ihcar ihcdr =>
      refine Acc.intro _ fun q hq => ?_
      obtain ⟨b, hb, hmem⟩ := hq
      cases hb
      rw [ha] at hmem
      rcases List.mem_pair.mp hmem with rfl | rfl
      exacts [ihcar, ihcdr]

/-- The objects on a path are different. -/
theorem Reads.height_le [Fintype ν] (h : Reads heap p t) {above : List ν} (hnodup : above.Nodup)
    (habove : ∀ b ∈ above, Relation.TransGen (Holds heap) p (some b)) :
    t.height + above.length ≤ Fintype.card ν := by
  have hfresh : ∀ {a : ν} {above : List ν}, Acyclic heap (some a) → above.Nodup →
      (∀ b ∈ above, Relation.TransGen (Holds heap) (some a) (some b)) → (a :: above).Nodup :=
    fun hacyclic hnodup habove =>
      List.nodup_cons.mpr ⟨fun hmem => hacyclic.irrefl (habove _ hmem), hnodup⟩
  induction h generalizing above with
  | nil => simpa [Tree.height] using hnodup.length_le_card
  | number ha =>
      have := (hfresh (Reads.number ha).acyclic hnodup habove).length_le_card
      simpa [Tree.height, Nat.add_comm] using this
  | string ha =>
      have := (hfresh (Reads.string ha).acyclic hnodup habove).length_le_card
      simpa [Tree.height, Nat.add_comm] using this
  | symbol ha =>
      have := (hfresh (Reads.symbol ha).acyclic hnodup habove).length_le_card
      simpa [Tree.height, Nat.add_comm] using this
  | @cons a car cdr t t' ha hcar hcdr ihcar ihcdr =>
      have hnodup' := hfresh (Reads.cons ha hcar hcdr).acyclic hnodup habove
      have hbelow : ∀ q, Holds heap q (some a) →
          ∀ b ∈ a :: above, Relation.TransGen (Holds heap) q (some b) := by
        intro q hq b hb
        rcases List.mem_cons.mp hb with rfl | hb
        exacts [.single hq, .head hq (habove b hb)]
      have h1 := ihcar hnodup' (hbelow car ⟨a, rfl, by simp [ha, Object.children]⟩)
      have h2 := ihcdr hnodup' (hbelow cdr ⟨a, rfl, by simp [ha, Object.children]⟩)
      simp only [Tree.height, List.length_cons] at h1 h2 ⊢
      omega

/-- What is below a cell and above something is a cell. -/
theorem exists_cell {a : ν} {car cdr : Option ν} (ha : heap a = .cons car cdr)
    (h : Relation.ReflTransGen (Holds heap) (some a) p) :
    ∃ b car' cdr', p = some b ∧ heap b = .cons car' cdr' := by
  rcases Relation.ReflTransGen.cases_tail h with rfl | ⟨q, -, b, rfl, hmem⟩
  · exact ⟨a, car, cdr, rfl, ha⟩
  · cases hb : heap b with
    | cons car' cdr' => exact ⟨b, car', cdr', rfl, hb⟩
    | number _ | string _ | symbol _ | zombie => simp [hb, Object.children] at hmem

theorem Reads.unique (h : Reads heap p t) (h' : Reads heap p u) : t = u := by
  induction h generalizing u with
  | nil =>
      cases h'
      rfl
  | number ha | string ha | symbol ha =>
      cases h' <;> simp_all
  | @cons a car cdr t t' ha _ _ ihcar ihcdr =>
      cases h' with
      | @cons _ car1 cdr1 _ _ ha1 h1 h2 =>
          obtain ⟨rfl, rfl⟩ : car1 = car ∧ cdr1 = cdr := by simpa [ha] using ha1.symm
          rw [ihcar h1, ihcdr h2]
      | number ha1 | string ha1 | symbol ha1 => simp [ha] at ha1

/-! ## Two pointers and a stack -/

/-- A loop that goes through a list without a cycle: it is at `p`, the slow
pointer is at a cell before, and what is on the stack holds `p`. -/
structure Cursor (heap : ν → Object (Option ν)) (stack : List (Option ν)) (slow p : Option ν) :
    Prop where
  behind : ∃ m, (cdrOf heap)^[m] slow = p
  acyclic : Acyclic heap p
  below : ∀ q ∈ stack, Relation.ReflTransGen (Holds heap) p q

section Cursor

variable {stack : List (Option ν)} {slow : Option ν} {a : ν} {car cdr : Option ν}

/-- The start of a loop. -/
theorem Cursor.start (h : Acyclic heap p) : Cursor heap [] p p :=
  ⟨⟨0, rfl⟩, h, by simp⟩

theorem holds_of_cons (ha : heap a = .cons car cdr) :
    Holds heap car (some a) ∧ Holds heap cdr (some a) :=
  ⟨⟨a, rfl, by simp [ha, Object.children]⟩, ⟨a, rfl, by simp [ha, Object.children]⟩⟩

theorem Cursor.holds_slow (h : Cursor heap stack slow (some a)) :
    Relation.ReflTransGen (Holds heap) (some a) slow := by
  obtain ⟨m, hm⟩ := h.behind
  exact holds_chain hm (Nat.zero_le m)

/-- Neither device cuts anything off. -/
theorem Cursor.uncut (h : Cursor heap stack slow (some a)) (ha : heap a = .cons car cdr) :
    car ∉ stack ∧ cdr ≠ slow := by
  obtain ⟨hcar, hcdr⟩ := holds_of_cons ha
  refine ⟨fun hmem => ?_, fun heq => ?_⟩
  · exact (h.acyclic.below (.single hcar)).irrefl (.head' hcar (h.below car hmem))
  · refine (h.acyclic.below (.single hcdr)).irrefl (.head' hcdr ?_)
    rw [heq]
    exact h.holds_slow

/-- The loop that goes through a list in the `Car`. -/
theorem Cursor.enter (h : Cursor heap stack slow (some a)) (ha : heap a = .cons car cdr) :
    Cursor heap (car :: stack) car car := by
  obtain ⟨hcar, -⟩ := holds_of_cons ha
  refine ⟨⟨0, rfl⟩, h.acyclic.below (.single hcar), fun q hq => ?_⟩
  rcases List.mem_cons.mp hq with rfl | hq
  exacts [.refl, .head hcar (h.below q hq)]

/-- The next cell; the slow pointer moves, or it does not. -/
theorem Cursor.next (h : Cursor heap stack slow (some a)) (ha : heap a = .cons car cdr)
    (moves : Bool) :
    ∃ slow', (if moves = true then readCdr heap slow else .ok slow) = .ok slow' ∧
      Cursor heap stack slow' cdr := by
  obtain ⟨-, hcdr⟩ := holds_of_cons ha
  have hacyclic := h.acyclic.below (.single hcdr)
  have hbelow : ∀ q ∈ stack, Relation.ReflTransGen (Holds heap) cdr q :=
    fun q hq => .head hcdr (h.below q hq)
  obtain ⟨m, hm⟩ := h.behind
  have hsucc : (cdrOf heap)^[m + 1] slow = cdr := by
    rw [Function.iterate_succ_apply', hm, cdrOf_some ha]
  cases moves with
  | false => exact ⟨slow, rfl, ⟨m + 1, hsucc⟩, hacyclic, hbelow⟩
  | true =>
      -- the slow pointer is on a cell, since the list goes on
      obtain ⟨b, car', cdr', rfl, hb⟩ := exists_cell ha h.holds_slow
      refine ⟨cdr', by simp [readCdr, hb], ⟨m, ?_⟩, hacyclic, hbelow⟩
      rw [← hsucc, Function.iterate_succ_apply, cdrOf_some hb]

end Cursor

end Reads

end Lush
