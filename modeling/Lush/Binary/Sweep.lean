import Lush.Binary.Emission

/-!
# The flags of a sweep

`sweep` goes through every kind of object: cells, objects of Lisp classes, classes,
arrays, functions, and whatever else has a `serialize` method.  What it goes
through below an object (`SweptObject.children`) does not depend on the flags, so that
the two passes of `bwrite` which change the flags are traversals of one graph.

The passes are compared with a tally from zero (`Visits`): `set_flags` marks what the
tally visits (`setFlags_visits`).  For `clear_flags` a second tally counts the marks
that are taken back (`clearFlags_visits`); both go everywhere, so nothing is left.
The flags of the objects outside of the graph may be anything.
-/

namespace Lush.Binary.Sweep

open Traversal

variable {ν : Type}

/-! ## The objects -/

/-- An object as `sweep` sees it; `ρ` is what its fields hold. -/
inductive SweptObject (ρ : Type)
  | cons (car cdr : ρ)
  /-- A number, or another object that is not external. -/
  | atom
  /-- An object of a Lisp class: the name and the object of the class, and the symbol and
  the value of each slot. -/
  | oostruct (classname backptr : ρ) (slots : List (ρ × ρ))
  /-- A class: `hasSuper` when there is an `atsuper`, and `hasDoc` when there is a
  `classdoc`. -/
  | class (priminame atsuper keylist defaults methods : ρ) (hasSuper hasDoc : Bool)
  /-- An index: the name of its class, its storage, and the elements it goes through when
  the storage is one of objects and the index is not unsized. -/
  | index (classname st : ρ) (elements : Option (List ρ))
  /-- A DE, DF or DM. -/
  | lfunction (formalArgList evaluableList : ρ)
  /-- A DX, DY or DH. -/
  | cfunction (name : ρ)
  /-- Another external object: the name of its class, and what its method `serialize`
  goes through, if there is one. -/
  | external (classname : ρ) (serialize : Option (List ρ))

/-- What `sweep` goes through below an object, in order. -/
def SweptObject.children {ρ : Type} (optBwrite : Bool) : SweptObject ρ → List ρ
  | .cons car cdr => [car, cdr]
  | .atom => []
  | .oostruct classname backptr slots =>
      (if optBwrite then backptr else classname) :: slots.flatMap fun slot => [slot.1, slot.2]
  | .class priminame atsuper keylist defaults methods hasSuper hasDoc =>
      priminame :: (if hasSuper && !hasDoc then [atsuper, keylist, defaults] else []) ++ [methods]
  | .index classname st elements =>
      if optBwrite then [classname, st] else elements.getD []
  | .lfunction formalArgList evaluableList => [formalArgList, evaluableList]
  | .cfunction name => [name]
  | .external classname serialize => serialize.elim [] fun below => classname :: below

/-- The graph that the sweeps go through. -/
def graph (optBwrite : Bool) (heap : ν → SweptObject (Option ν)) (a : ν) : List (Option ν) :=
  (heap a).children optBwrite

section Code

variable [LinearOrder ν] [Fintype ν]

/-- `sweep`: the action, and then what is below. -/
def sweep (optBwrite : Bool) (heap : ν → SweptObject (Option ν))
    (action : Option ν → Writer ν → Except Fault (Bool × Writer ν)) (p : Option ν) (w : Writer ν) :
    Except Fault (Writer ν) :=
  walk (graph optBwrite heap) .depth (visitor action) (Fintype.card ν + 1) p w

/-- `set_flags`. -/
def setFlags (optBwrite : Bool) (heap : ν → SweptObject (Option ν)) (p : Option ν) (w : Writer ν) :
    Except Fault (Writer ν) :=
  sweep optBwrite heap condSetFlags p w

/-- `clear_flags`. -/
def clearFlags (optBwrite : Bool) (heap : ν → SweptObject (Option ν)) (p : Option ν)
    (w : Writer ν) : Except Fault (Writer ν) :=
  sweep optBwrite heap condClearFlags p w

end Code

/-! ## Setting -/

section Setting

variable [LinearOrder ν] {flags : ν → Flags} {c : ν → ℕ} {w : Writer ν}

/-- The flags that `set_flags` has set when the tally has reached `c`. -/
def setWhere (c : ν → ℕ) (a : ν) : Flags :=
  ⟨decide (c a ≠ 0), decide (2 ≤ c a)⟩

/-- The state of `set_flags` when the tally has reached `c`: the objects not visited have
the flags they had. -/
structure Visits (flags : ν → Flags) (w : Writer ν) (c : ν → ℕ) : Prop where
  flagged : Flagged c { w with flags := setWhere c }
  flags : ∀ a, w.flags a = if c a = 0 then flags a else setWhere c a

/-- `cond_set_flags` looks at the flags of its object only. -/
theorem condSetFlags_frame (w w0 : Writer ν) {w0' : Writer ν} {a : ν} {stop : Bool}
    (hflags : w.flags a = w0.flags a) (hreloc : w.reloc = w0.reloc) (hout : w.out = w0.out)
    (h : condSetFlags (some a) w0 = .ok (stop, w0')) :
    condSetFlags (some a) w =
      .ok (stop, ⟨Function.update w.flags a (w0'.flags a), w0'.reloc, w0'.out⟩) := by
  unfold condSetFlags at h ⊢
  simp only [hflags, hreloc] at h ⊢
  split at h
  · split at h
    · cases h
      simp [*, Bind.bind, Except.bind, pure, Except.pure, Writer.setFlags]
    · obtain ⟨reloc, hr, h⟩ := bind_ok.mp h
      cases h
      simp [*, Bind.bind, Except.bind, Writer.setFlags]
  · cases h
    simp [*, Writer.setFlags]

theorem condSetFlags_visits (children : ν → List (Option ν)) {bound : ν → ℕ}
    (hclear : ∀ a, bound a ≠ 0 → flags a = ⟨false, false⟩) :
    StepSim children (visitor condSetFlags) tally (fun c => ∀ a, c a ≤ bound a)
      (Visits flags) := by
  intro p w c go c' h hvisit hbound
  cases p with
  | none =>
      cases hvisit
      exact ⟨false, w, rfl, h, .inl rfl⟩
  | some a =>
      cases hvisit
      -- the object is one of the graph, so its flags are those of the tally
      have hin : bound a ≠ 0 := by
        have := hbound a
        rw [bump_self] at this
        omega
      have hflags : w.flags a = setWhere c a := by
        rw [h.flags]
        split
        case isTrue hzero => rw [hclear a hin]; simp [setWhere, hzero]
        case isFalse => rfl
      obtain ⟨w0', hcond, hflagged⟩ : ∃ w0', condSetFlags (some a)
          { w with flags := setWhere c } = .ok (decide (c a ≠ 0), w0') ∧
            Flagged (bump c a) w0' := by
        by_cases ha : c a = 0
        · simpa [ha] using condSetFlags_first h.flagged ha
        · simpa [ha] using condSetFlags_again h.flagged ha
      refine ⟨c a == 0, ⟨Function.update w.flags a (w0'.flags a), w0'.reloc, w0'.out⟩, ?_,
        ⟨?_, fun b => ?_⟩, .inl rfl⟩
      · rw [visitor_ok (condSetFlags_frame w { w with flags := setWhere c } hflags rfl rfl
          hcond)]
        congr 2
        by_cases ha : c a = 0 <;> simp [ha]
      · have heq : w0'.flags = setWhere (bump c a) := funext hflagged.flags
        exact heq ▸ hflagged
      · by_cases hb : b = a
        · subst hb
          dsimp only
          rw [Function.update_self, if_neg (by simp)]
          exact hflagged.flags b
        · simp [hb, h.flags, setWhere]

variable [Fintype ν]

/-- **`set_flags` marks what the tally visits**, and what it visits twice. -/
theorem setFlags_visits {optBwrite : Bool} {heap : ν → SweptObject (Option ν)} {p : Option ν}
    (hclear : ∀ a, Reachable (graph optBwrite heap) [p] a → flags a = ⟨false, false⟩) :
    ∃ c w, setFlags optBwrite heap p ⟨flags, [], []⟩ = .ok w ∧ Visits flags w c ∧
      Tallied (graph optBwrite heap) [p] (fun _ => 0) c := by
  obtain ⟨c, hc, htallied⟩ := exists_tally (graph optBwrite heap) p
  have hinit : Visits flags ⟨flags, [], []⟩ fun _ => 0 :=
    ⟨⟨fun _ => rfl, .nil, fun e => by simp, rfl⟩, fun a => (if_pos rfl).symm⟩
  have hin : ∀ a, c a ≠ 0 → flags a = ⟨false, false⟩ := by
    intro a ha
    refine hclear a (((htallied.ne_zero_iff fun _ _ => rfl) a).mp ha |>.resolve_left ?_)
    simp
  obtain ⟨w, hw, hvisits⟩ := walk_sim (tally_backward c) (condSetFlags_visits _ hin) _ p _ _ _
    hinit hc fun a => le_rfl
  exact ⟨c, w, hw, hvisits, htallied⟩

end Setting

/-! ## Clearing -/

section Clearing

variable [LinearOrder ν] {flags : ν → Flags} {c : ν → ℕ} {w : Writer ν}

/-- The state of `clear_flags` when the second tally has reached `d`. -/
def Cleared (flags : ν → Flags) (c : ν → ℕ) (w : Writer ν) (d : ν → ℕ) : Prop :=
  ∀ a, w.flags a = if c a = 0 then flags a else if d a = 0 then setWhere c a else ⟨false, false⟩

theorem condClearFlags_cleared (children : ν → List (Option ν)) {bound : ν → ℕ}
    (hbound : ∀ a, bound a ≠ 0 → c a ≠ 0) :
    StepSim children (visitor condClearFlags) tally (fun d => ∀ a, d a ≤ bound a)
      (Cleared flags c) := by
  intro p w d go d' h hvisit hle
  cases p with
  | none =>
      cases hvisit
      exact ⟨false, w, rfl, h, .inl rfl⟩
  | some a =>
      cases hvisit
      have hin : c a ≠ 0 := by
        apply hbound a
        have := hle a
        rw [bump_self] at this
        omega
      have hflags := h a
      rw [if_neg hin] at hflags
      by_cases ha : d a = 0
      · rw [if_pos ha] at hflags
        have hclear : condClearFlags (some a) w = .ok (false, w.setFlags a ⟨false, false⟩) := by
          simp [condClearFlags, hflags, setWhere, hin]
        refine ⟨true, w.setFlags a ⟨false, false⟩, visitor_ok hclear, fun b => ?_,
          .inl (by simp [ha])⟩
        by_cases hb : b = a
        · subst hb
          simp [Writer.setFlags, hin]
        · simp [Writer.setFlags, hb, h b]
      · rw [if_neg ha] at hflags
        have hclear : condClearFlags (some a) w = .ok (true, w) := by
          simp [condClearFlags, hflags]
        refine ⟨false, w, visitor_ok hclear, fun b => ?_, .inl (by simp [ha])⟩
        by_cases hb : b = a
        · subst hb
          simp [hflags, hin]
        · simp [hb, h b]

variable [Fintype ν]

/-- **`clear_flags` visits what `set_flags` has visited**, and gives every object the flags
back that it had. -/
theorem clearFlags_visits {optBwrite : Bool} {heap : ν → SweptObject (Option ν)} {p : Option ν}
    (hclear : ∀ a, Reachable (graph optBwrite heap) [p] a → flags a = ⟨false, false⟩)
    (hc : Tallied (graph optBwrite heap) [p] (fun _ => 0) c) (h : Visits flags w c) :
    ∃ w', clearFlags optBwrite heap p w = .ok w' ∧ w'.flags = flags := by
  have hreach : ∀ {d : ν → ℕ}, Tallied (graph optBwrite heap) [p] (fun _ => 0) d → ∀ a,
      d a ≠ 0 ↔ Reachable (graph optBwrite heap) [p] a := by
    intro d hd a
    rw [hd.ne_zero_iff (fun _ _ => rfl) a]
    simp
  obtain ⟨d, hd, htallied⟩ := exists_tally (graph optBwrite heap) p
  have hstart : Cleared flags c w fun _ => 0 := by
    intro a
    rw [h.flags, if_pos rfl]
  obtain ⟨w', hw', hcleared⟩ := walk_sim (tally_backward d)
    (condClearFlags_cleared _ fun a ha => (hreach hc a).mpr ((hreach htallied a).mp ha))
    _ p w _ d hstart hd fun a => le_rfl
  refine ⟨w', hw', funext fun a => ?_⟩
  rw [hcleared a]
  by_cases ha : Reachable (graph optBwrite heap) [p] a
  · rw [if_neg ((hreach hc a).mpr ha), if_neg ((hreach htallied a).mpr ha), hclear a ha]
  · rw [if_pos (not_not.mp (mt (hreach hc a).mp ha))]

end Clearing

/-! ## The two passes -/

/-- What `set_flags` does to a graph whose flags are clear. -/
structure MarksGraph [LinearOrder ν] [Fintype ν] (children : ν → List (Option ν)) (p : Option ν)
    (flags : ν → Flags) (w : Writer ν) : Prop where
  mark : ∀ a, Reachable children [p] a → (w.flags a).mark = true
  multiple : ∀ a, Reachable children [p] a →
    ((w.flags a).multiple = true ↔ 2 ≤ references children [p] a)
  frame : ∀ a, ¬Reachable children [p] a → w.flags a = flags a
  increasing : (keys w.reloc).Pairwise (· < ·)
  mem_reloc : ∀ a, a ∈ keys w.reloc ↔ Reachable children [p] a ∧ (w.flags a).multiple = true

/-- **`bwrite` leaves the flags as they were**: `set_flags` ends, marks what is reachable,
and enters in the table what is met more than once; then `clear_flags` ends, and
every object has the flags it had. -/
theorem flags_restored [LinearOrder ν] [Fintype ν] (optBwrite : Bool)
    (heap : ν → SweptObject (Option ν)) (p : Option ν) (flags : ν → Flags)
    (hclear : ∀ a, Reachable (graph optBwrite heap) [p] a → flags a = ⟨false, false⟩) :
    ∃ w w', setFlags optBwrite heap p ⟨flags, [], []⟩ = .ok w ∧
      MarksGraph (graph optBwrite heap) p flags w ∧
      clearFlags optBwrite heap p w = .ok w' ∧ w'.flags = flags := by
  obtain ⟨c, w, hw, hvisits, htallied⟩ := setFlags_visits hclear
  obtain ⟨w', hw', hrestored⟩ := clearFlags_visits hclear htallied hvisits
  have hreach : ∀ a, c a ≠ 0 ↔ Reachable (graph optBwrite heap) [p] a := by
    intro a
    rw [htallied.ne_zero_iff (fun _ _ => rfl) a]
    simp
  have hflags : ∀ a, Reachable (graph optBwrite heap) [p] a → w.flags a = setWhere c a :=
    fun a ha => by rw [hvisits.flags, if_neg ((hreach a).mpr ha)]
  have hmultiple : ∀ a, Reachable (graph optBwrite heap) [p] a →
      ((w.flags a).multiple = true ↔ 2 ≤ references (graph optBwrite heap) [p] a) := by
    intro a ha
    rw [hflags a ha, ← htallied.count_of_zero]
    simp [setWhere]
  refine ⟨w, w', hw, ⟨fun a ha => ?_, hmultiple, fun a ha => ?_, hvisits.flagged.sorted,
    fun a => ?_⟩, hw', hrestored⟩
  · rw [hflags a ha]
    simpa [setWhere] using (hreach a).mpr ha
  · rw [hvisits.flags, if_pos (not_not.mp (mt (hreach a).mp ha))]
  · have hmem : a ∈ keys w.reloc ↔ 2 ≤ c a := hvisits.flagged.mem_keys a
    rw [hmem]
    refine ⟨fun htwo => ?_, fun h => ?_⟩
    · have ha := (hreach a).mp (by omega)
      exact ⟨ha, by rw [hflags a ha]; simpa [setWhere] using htwo⟩
    · rw [hflags a h.1] at h
      simpa [setWhere] using h.2

/-- A cell that holds itself twice. -/
def selfCell : Fin 1 → SweptObject (Option (Fin 1)) :=
  fun _ => .cons (some 0) (some 0)

theorem flags_restored_selfCell :
    ∃ w w', setFlags false selfCell (some 0) ⟨fun _ => ⟨false, false⟩, [], []⟩ = .ok w ∧
      MarksGraph (graph false selfCell) (some 0) (fun _ => ⟨false, false⟩) w ∧
      clearFlags false selfCell (some 0) w = .ok w' ∧ w'.flags = fun _ => ⟨false, false⟩ :=
  flags_restored false selfCell (some 0) (fun _ => ⟨false, false⟩) fun _ _ => rfl

end Lush.Binary.Sweep
