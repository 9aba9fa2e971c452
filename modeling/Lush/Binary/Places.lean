import Lush.Binary.Read

/-!
# Places and threads

Lemmas about the places of the reader: what a store changes, what an allocation
changes, and what `define_refd_reloc` does to a thread (`defineRefdReloc_ok`).
-/

namespace Lush.Binary

/-! ## Fields -/

@[simp] theorem label_setField (x : Field) (w : Word) (o : Object Word) :
    (setField x w o).label = o.label := by
  cases o <;> cases x <;> rfl

theorem field_setField_self {x : Field} {w v : Word} {o : Object Word} (h : o.field x = some v) :
    (setField x w o).field x = some w := by
  cases o <;> cases x <;> simp [setField, Object.field] at h ⊢

theorem field_setField_ne {x y : Field} (h : x ≠ y) (w : Word) (o : Object Word) :
    (setField x w o).field y = o.field y := by
  cases o <;> cases x <;> cases y <;> simp [setField, Object.field] at h ⊢

namespace Reader

variable {r : Reader} {s pp : Slot} {w : Word}

/-! ## Stores -/

/-- The place exists. -/
def Valid (r : Reader) (s : Slot) : Prop :=
  (r.get s).isSome

theorem Valid.of_get (h : r.get s = some w) : r.Valid s := by
  simp [Valid, h]

@[simp] theorem put_reloc (r : Reader) (s : Slot) (w : Word) : (r.put s w).reloc = r.reloc := by
  cases s <;> rfl

@[simp] theorem put_input (r : Reader) (s : Slot) (w : Word) : (r.put s w).input = r.input := by
  cases s <;> rfl

@[simp] theorem length_cells_put (r : Reader) (s : Slot) (w : Word) :
    (r.put s w).cells.length = r.cells.length := by
  cases s <;> simp [put]

theorem get_put_self (h : r.Valid s) (w : Word) : (r.put s w).get s = some w := by
  cases s with
  | ans => rfl
  | field n x =>
      obtain ⟨v, hv⟩ := Option.isSome_iff_exists.mp h
      obtain ⟨o, ho, hfield⟩ := Option.bind_eq_some_iff.mp hv
      simp [put, get, ho, field_setField_self hfield]

theorem get_put_ne {s' : Slot} (h : s ≠ s') (w : Word) : (r.put s w).get s' = r.get s' := by
  cases s with
  | ans =>
      cases s' with
      | ans => exact absurd rfl h
      | field n x => rfl
  | field n x =>
      cases s' with
      | ans => rfl
      | field m y =>
          simp only [put, get, List.getElem?_modify]
          by_cases hn : n = m
          · subst hn
            have hxy : x ≠ y := fun hxy => h (hxy ▸ rfl)
            cases r.cells[n]? <;> simp [field_setField_ne hxy]
          · simp [hn]

/-- A store keeps the constructors and payloads of the cells. -/
theorem label_put (r : Reader) (s : Slot) (w : Word) (n : ℕ) :
    ((r.put s w).cells[n]?).map Object.label = (r.cells[n]?).map Object.label := by
  cases s with
  | ans => rfl
  | field m x =>
      simp only [put, List.getElem?_modify]
      by_cases hn : m = n
      · subst hn
        cases r.cells[m]? <;> simp
      · simp [hn]

theorem Valid.put (h : r.Valid s) (pp : Slot) (w : Word) : (r.put pp w).Valid s := by
  by_cases hs : pp = s
  · subst hs
    exact .of_get (get_put_self h w)
  · rwa [Valid, get_put_ne hs]

/-! ## Allocations -/

@[simp] theorem alloc_reloc (r : Reader) (pp : Slot) (o : Object Word) :
    (r.alloc pp o).reloc = r.reloc := by
  simp [alloc]

@[simp] theorem alloc_input (r : Reader) (pp : Slot) (o : Object Word) :
    (r.alloc pp o).input = r.input := by
  simp [alloc]

/-- The places of the older cells are still there. -/
theorem get_append (r : Reader) (h : r.Valid s) (o : Object Word) :
    ({ r with cells := r.cells ++ [o] } : Reader).get s = r.get s := by
  cases s with
  | ans => rfl
  | field n x =>
      obtain ⟨v, hv⟩ := Option.isSome_iff_exists.mp h
      obtain ⟨o', ho', -⟩ := Option.bind_eq_some_iff.mp hv
      obtain ⟨hlt, -⟩ := List.getElem?_eq_some_iff.mp ho'
      simp [get, List.getElem?_append_left hlt]

theorem get_alloc_self (h : r.Valid pp) (o : Object Word) :
    (r.alloc pp o).get pp = some (.obj r.cells.length) :=
  get_put_self (by rwa [Valid, get_append r h o]) _

theorem get_alloc_ne (h : r.Valid s) (hne : pp ≠ s) (o : Object Word) :
    (r.alloc pp o).get s = r.get s := by
  rw [alloc, get_put_ne hne, get_append r h]

/-- The places of the new cell. -/
theorem get_alloc_new (h : r.Valid pp) (o : Object Word) (x : Field) :
    (r.alloc pp o).get (.field r.cells.length x) = o.field x := by
  have hne : pp ≠ .field r.cells.length x := by
    rintro rfl
    simp [Valid, get] at h
  rw [alloc, get_put_ne hne]
  simp [get]

theorem label_alloc_of_lt (pp : Slot) (o : Object Word) {n : ℕ} (h : n < r.cells.length) :
    ((r.alloc pp o).cells[n]?).map Object.label = (r.cells[n]?).map Object.label := by
  rw [alloc, label_put]
  simp [List.getElem?_append_left h]

theorem label_alloc_new (r : Reader) (pp : Slot) (o : Object Word) :
    ((r.alloc pp o).cells[r.cells.length]?).map Object.label = some o.label := by
  rw [alloc, label_put]
  simp

/-- The places of a reader are those of its cells, and `ans`. -/
theorem length_le_of_valid {ss : List Slot} (hnodup : ss.Nodup) (h : ∀ s ∈ ss, r.Valid s) :
    ss.length ≤ 2 * r.cells.length + 1 := by
  let places : List Slot := .ans :: ((List.range r.cells.length).map (Slot.field · .car) ++
    (List.range r.cells.length).map (Slot.field · .cdr))
  have hsub : ss ⊆ places := by
    intro s hs
    cases s with
    | ans => simp [places]
    | field n x =>
        obtain ⟨v, hv⟩ := Option.isSome_iff_exists.mp (h _ hs)
        obtain ⟨o, ho, -⟩ := Option.bind_eq_some_iff.mp hv
        obtain ⟨hlt, -⟩ := List.getElem?_eq_some_iff.mp ho
        cases x <;> simp [places, hlt]
  calc ss.length ≤ places.length := (List.subperm_of_subset hnodup hsub).length_le
    _ = 2 * r.cells.length + 1 := by simp [places]; omega

end Reader

/-! ## Threads -/

/-- The head of a thread, as it stands in `relocp`. -/
def link : List Slot → Word
  | [] => .null
  | s :: _ => .slot s

/-- Each place of the thread points to the next one. -/
def Threaded (r : Reader) : List Slot → Prop
  | [] => True
  | s :: ss => r.get s = some (link ss) ∧ Threaded r ss

theorem Threaded.valid {r : Reader} {ss : List Slot} (h : Threaded r ss) :
    ∀ s ∈ ss, r.Valid s := by
  induction ss with
  | nil => intro s hs; simp at hs
  | cons s ss ih =>
      intro s' hs'
      rcases List.mem_cons.mp hs' with rfl | hs'
      · exact .of_get h.1
      · exact ih h.2 s' hs'

theorem Threaded.congr {r r' : Reader} {ss : List Slot} (h : Threaded r ss)
    (hget : ∀ s ∈ ss, r'.get s = r.get s) : Threaded r' ss := by
  induction ss with
  | nil => trivial
  | cons s ss ih =>
      refine ⟨?_, ih h.2 fun s' hs' => hget s' (List.mem_cons_of_mem _ hs')⟩
      rw [hget s List.mem_cons_self, h.1]

/-- What `define_refd_reloc` changes: the places of the thread. -/
structure Patched (p : Word) (ss : List Slot) (r r' : Reader) : Prop where
  mem : ∀ s ∈ ss, r'.get s = some p
  frame : ∀ s ∉ ss, r'.get s = r.get s
  label : ∀ n : ℕ, (r'.cells[n]?).map Object.label = (r.cells[n]?).map Object.label
  reloc : r'.reloc = r.reloc
  input : r'.input = r.input

/-- **`define_refd_reloc` puts the object in all the places of the thread**, and
nowhere else. -/
theorem defineRefdReloc_ok (p : Word) : ∀ (ss : List Slot) (rounds : ℕ) (r : Reader),
    Threaded r ss → ss.Nodup → ss.length < rounds →
    ∃ r', defineRefdReloc p rounds (link ss) r = .ok r' ∧ Patched p ss r r' := by
  intro ss
  induction ss with
  | nil =>
      intro rounds r _ _ hrounds
      obtain ⟨rounds, rfl⟩ : ∃ k, rounds = k + 1 := ⟨rounds - 1, by simp at hrounds; omega⟩
      exact ⟨r, rfl, by simp, fun _ _ => rfl, fun _ => rfl, rfl, rfl⟩
  | cons s ss ih =>
      intro rounds r hthread hnodup hrounds
      obtain ⟨hnot, hnodup⟩ := List.nodup_cons.mp hnodup
      obtain ⟨rounds, rfl⟩ : ∃ k, rounds = k + 1 := ⟨rounds - 1, by omega⟩
      -- the rest of the thread does not pass through this place
      have hrest : Threaded (r.put s p) ss := hthread.2.congr fun s' hs' =>
        Reader.get_put_ne (fun heq : s = s' => hnot (heq ▸ hs')) p
      obtain ⟨r', hr', hpatched⟩ := ih rounds (r.put s p) hrest hnodup
        (by simpa using hrounds)
      refine ⟨r', ?_, ?_, ?_, ?_, ?_, ?_⟩
      · have hstep : defineRefdReloc p (rounds + 1) (link (s :: ss)) r =
            r.deref s >>= fun f => defineRefdReloc p rounds f (r.put s p) := rfl
        rw [hstep, Reader.deref, hthread.1]
        exact hr'
      · intro s' hs'
        rcases List.mem_cons.mp hs' with rfl | hs'
        · rw [hpatched.frame _ hnot]
          exact Reader.get_put_self (.of_get hthread.1) p
        · exact hpatched.mem s' hs'
      · intro s' hs'
        rw [List.mem_cons, not_or] at hs'
        rw [hpatched.frame s' hs'.2]
        exact Reader.get_put_ne (Ne.symm hs'.1) p
      · intro n
        rw [hpatched.label, Reader.label_put]
      · rw [hpatched.reloc, Reader.put_reloc]
      · rw [hpatched.input, Reader.put_input]

end Lush.Binary
