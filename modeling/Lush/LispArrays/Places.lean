import Lush.LispArrays.Read

/-!
# The places of the reader

What the stores, the allocations and `define_refd_reloc` do, as relations between views.
The view tells of a cell all but its references: of an array its index, and the size of
its storage.
-/

namespace Lush.LispArrays

open Arrays Strides
open Backpatch (View Stored Made Patched Threaded Flag link)

/-- All of a cell but what its fields hold. -/
inductive Kind
  | cons
  | number (x : BitVec 64)
  | array (ind : Index) (size : ℕ)
deriving DecidableEq

variable {ρ : Type}

/-- The kind of a cell. -/
def Node.kind : Node ρ → Kind
  | .cons _ _ => .cons
  | .number x => .number x
  | .array ind data => .array ind data.length

theorem fields_setField (i : ℕ) (w : ρ) (o : Node ρ) : (o.setField i w).fields = o.fields.set i w := by
  cases o with
  | cons car cdr =>
      match i with
      | 0 => rfl
      | 1 => rfl
      | _ + 2 => rfl
  | number x => rfl
  | array ind data => rfl

@[simp] theorem kind_setField (i : ℕ) (w : ρ) (o : Node ρ) : (o.setField i w).kind = o.kind := by
  cases o with
  | cons car cdr =>
      match i with
      | 0 => rfl
      | 1 => rfl
      | _ + 2 => rfl
  | number x => rfl
  | array ind data => simp [Node.setField, Node.kind]

/-- The number of fields of a cell. -/
def Kind.size : Kind → ℕ
  | .cons => 2
  | .number _ => 0
  | .array _ size => size

theorem length_fields (o : Node ρ) : o.fields.length = o.kind.size := by
  cases o <;> rfl

/-! ## Views -/

/-- What is seen of a reader. -/
def Reader.view (r : Reader) : View Slot Kind where
  get := r.get
  size := r.cells.length
  shape n := r.cells[n]?.map Node.kind
  table := r.reloc

variable {r r' : Reader} {pp s : Slot} {w : Word}

/-- **A store** in a place that exists. -/
theorem stored_put (h : r.view.Valid pp) (w : Word) :
    Stored r.view (r.put pp w).view pp w ∧ (r.put pp w).view.table = r.view.table := by
  cases pp with
  | ans =>
      refine ⟨⟨rfl, fun s hs => ?_, rfl, rfl⟩, rfl⟩
      cases s with
      | ans => exact absurd rfl hs
      | field n i => rfl
  | field n i =>
      obtain ⟨v, hv⟩ := Option.isSome_iff_exists.mp h
      obtain ⟨o, ho, hi⟩ := Option.bind_eq_some_iff.mp hv
      refine ⟨⟨?_, fun s hs => ?_, by simp [Reader.view, Reader.put], ?_⟩, rfl⟩
      · have hlt : i < o.fields.length := (List.getElem?_eq_some_iff.mp hi).1
        simp [Reader.view, Reader.get, Reader.put, ho, fields_setField, hlt]
      · cases s with
        | ans => rfl
        | field m j =>
            simp only [Reader.view, Reader.get, Reader.put, List.getElem?_modify]
            by_cases hn : n = m
            · subst hn
              have hij : i ≠ j := fun hij => hs (hij ▸ rfl)
              simp [ho, fields_setField, List.getElem?_set_ne hij]
            · simp [hn]
      · funext m
        simp only [Reader.view, Reader.put, List.getElem?_modify]
        by_cases hn : n = m
        · subst hn
          simp [ho]
        · simp [hn]

theorem put_input (r : Reader) (s : Slot) (w : Word) : (r.put s w).input = r.input := by
  cases s <;> rfl

theorem alloc_input (r : Reader) (s : Slot) (o : Node Word) : (r.alloc s o).input = r.input :=
  put_input _ _ _

/-- The places of the older cells are still there. -/
theorem get_append (h : r.view.Valid s) (o : Node Word) :
    ({ r with cells := r.cells ++ [o] } : Reader).get s = r.get s := by
  cases s with
  | ans => rfl
  | field n i =>
      obtain ⟨v, hv⟩ := Option.isSome_iff_exists.mp h
      obtain ⟨o', ho', -⟩ := Option.bind_eq_some_iff.mp hv
      obtain ⟨hlt, -⟩ := List.getElem?_eq_some_iff.mp ho'
      simp [Reader.get, List.getElem?_append_left hlt]

/-- **An allocation.** -/
theorem made_alloc (h : r.view.Valid pp) (o : Node Word) :
    Made r.view (r.alloc pp o).view pp o.kind := by
  have hvalid : ({ r with cells := r.cells ++ [o] } : Reader).view.Valid pp := by
    rw [View.Valid]
    show (({ r with cells := r.cells ++ [o] } : Reader).get pp).isSome
    rw [get_append h]
    exact h
  obtain ⟨hstored, htable⟩ := stored_put hvalid (.obj r.cells.length)
  refine ⟨hstored.self, fun s hs hne => ?_, ?_, fun m hm => ?_, ?_, htable⟩
  · exact (hstored.frame s hne).trans (get_append hs o)
  · exact hstored.size.trans (by simp [Reader.view])
  · refine (congrFun hstored.shape m).trans ?_
    have hlt : m < r.cells.length := hm
    simp [Reader.view, List.getElem?_append_left hlt]
  · refine (congrFun hstored.shape _).trans ?_
    simp [Reader.view]

/-- The places of a new cell. -/
theorem get_alloc_new (h : r.view.Valid pp) (o : Node Word) (i : ℕ) :
    (r.alloc pp o).get (.field r.cells.length i) = o.fields[i]? := by
  have hne : Slot.field r.cells.length i ≠ pp := by
    rintro rfl
    simp [View.Valid, Reader.view, Reader.get] at h
  have hvalid : ({ r with cells := r.cells ++ [o] } : Reader).view.Valid pp := by
    rw [View.Valid]
    show (({ r with cells := r.cells ++ [o] } : Reader).get pp).isSome
    rw [get_append h]
    exact h
  refine ((stored_put hvalid (.obj r.cells.length)).1.frame _ hne).trans ?_
  simp [Reader.view, Reader.get]

/-- The places of a cell that is not there. -/
theorem not_valid_new (r : Reader) (i : ℕ) : ¬ r.view.Valid (.field r.cells.length i) := by
  simp [View.Valid, Reader.view, Reader.get]

/-! ## Threads -/

/-- A thread is not longer than there are places. -/
theorem length_le_places {ss : List Slot} (hnodup : ss.Nodup) (h : ∀ s ∈ ss, r.view.Valid s) :
    ss.length ≤ places r + 1 := by
  let all : List Slot := .ans :: (List.range r.cells.length).flatMap fun n =>
    (List.range ((r.cells[n]?.map fun o => o.fields.length).getD 0)).map (Slot.field n)
  have hsub : ss ⊆ all := by
    intro s hs
    cases s with
    | ans => simp [all]
    | field n i =>
        obtain ⟨v, hv⟩ := Option.isSome_iff_exists.mp (h _ hs)
        obtain ⟨o, ho, hi⟩ := Option.bind_eq_some_iff.mp hv
        obtain ⟨hlt, -⟩ := List.getElem?_eq_some_iff.mp ho
        obtain ⟨hlt', -⟩ := List.getElem?_eq_some_iff.mp hi
        simp only [all, List.mem_cons, List.mem_flatMap, List.mem_range, List.mem_map]
        exact Or.inr ⟨n, hlt, i, by simpa [ho] using hlt', rfl⟩
  have hall : all.length = places r + 1 := by
    simp only [all, List.length_cons, List.length_flatMap, List.length_map, List.length_range,
      places]
    congr 2
    apply List.ext_getElem
    · simp
    · intro n hn hn'
      have hlt : n < r.cells.length := by simpa using hn'
      simp [hlt]
  calc ss.length ≤ all.length := (List.subperm_of_subset hnodup hsub).length_le
    _ = places r + 1 := hall

/-- **`define_refd_reloc` puts the object in all the places of the thread**, and nowhere
else. -/
theorem defineRefdReloc_ok (p : Word) (ss : List Slot) (rounds : ℕ) (r : Reader)
    (hthread : Threaded r.view ss) (hnodup : ss.Nodup) (hrounds : ss.length < rounds) :
    ∃ r', defineRefdReloc p rounds (link ss) r = .ok r' ∧ Patched r.view r'.view p ss ∧
      r'.reloc = r.reloc ∧ r'.input = r.input := by
  induction ss generalizing rounds r with
  | nil =>
      obtain ⟨rounds, rfl⟩ : ∃ k, rounds = k + 1 := ⟨rounds - 1, by simp at hrounds; omega⟩
      exact ⟨r, rfl, ⟨List.forall_mem_nil _, fun _ _ => rfl, rfl, rfl⟩, rfl, rfl⟩
  | cons s ss ih =>
      obtain ⟨hnot, hnodup⟩ := List.nodup_cons.mp hnodup
      obtain ⟨rounds, rfl⟩ : ∃ k, rounds = k + 1 := ⟨rounds - 1, by omega⟩
      obtain ⟨hstored, htable⟩ := stored_put (View.Valid.of_get hthread.1) p
      -- the rest of the thread does not pass through this place
      have hrest : Threaded (r.put s p).view ss := hthread.2.congr fun s' hs' =>
        hstored.frame s' fun heq => hnot (heq ▸ hs')
      obtain ⟨r', hr', hpatched, hreloc, hinput⟩ := ih rounds (r.put s p) hrest hnodup
        (by simpa using hrounds)
      refine ⟨r', ?_, ⟨fun s' hs' => ?_, fun s' hs' => ?_, hpatched.size.trans hstored.size,
        hpatched.shape.trans hstored.shape⟩, hreloc.trans htable, hinput.trans (put_input _ _ _)⟩
      · have hget : r.get s = some (link ss) := hthread.1
        have hstep : defineRefdReloc p (rounds + 1) (link (s :: ss)) r =
            r.deref s >>= fun f => defineRefdReloc p rounds f (r.put s p) := rfl
        rw [hstep, Reader.deref, hget]
        exact hr'
      · rcases List.mem_cons.mp hs' with rfl | hs'
        · exact (hpatched.frame _ hnot).trans hstored.self
        · exact hpatched.mem s' hs'
      · rw [List.mem_cons, not_or] at hs'
        exact (hpatched.frame s' hs'.2).trans (hstored.frame s' hs'.1)

end Lush.LispArrays
