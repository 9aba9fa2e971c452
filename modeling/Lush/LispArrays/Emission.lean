import Lush.Binary.Emission
import Lush.LispArrays.Write

/-!
# What a write of Lisp arrays emits

The second sweep is compared with the tally of the graph: it visits what the tally visits,
and the tokens follow the grammar `Emits`.  It stops with an error when it visits an array
with a dimension that is too large, and only then (`localWrite_emits`).
-/

namespace Lush.LispArrays

open Traversal
open Binary (keys Sorted)

variable {ν : Type} [LinearOrder ν]

/-! ## The grammar of the tokens -/

/-- The token of a node. -/
def nodeToken {ρ : Type} : Node ρ → Token
  | .cons _ _ => .cons
  | .number x => .number x
  | .array ind _ => .array (ndimOf ind) ((dimensions ind).getD [])

/-- The definition that comes before a relocated node. -/
def announce (ks : List ν) (a : ν) : List Token := if a ∈ ks then [.defn (ks.idxOf a)] else []

/-- Writing the references `ps`, when the visits made so far are `c`, emits the tokens and
leaves the visits at `c'`; `ks` holds the relocated nodes. -/
inductive Emits (heap : ν → Node (Option ν)) (ks : List ν) :
    (ν → ℕ) → List (Option ν) → List Token → (ν → ℕ) → Prop
  | nil {c} : Emits heap ks c [] [] c
  | null {c ps ts c'} : Emits heap ks c ps ts c' → Emits heap ks c (none :: ps) (.nil :: ts) c'
  | ref {c a ps ts c'} : c a ≠ 0 → a ∈ ks → Emits heap ks (bump c a) ps ts c' →
      Emits heap ks c (some a :: ps) (.ref (ks.idxOf a) :: ts) c'
  | node {c a ts c1 ps us c'} : c a = 0 → Emits heap ks (bump c a) (heap a).children ts c1 →
      Emits heap ks c1 ps us c' →
      Emits heap ks c (some a :: ps) (announce ks a ++ nodeToken (heap a) :: (ts ++ us)) c'

variable {heap : ν → Node (Option ν)} {ks : List ν} {c c' fin : ν → ℕ} {w : Writer ν}

theorem Emits.le {ps : List (Option ν)} {ts : List Token} (h : Emits heap ks c ps ts c') (b : ν) :
    c b ≤ c' b := by
  induction h with
  | nil => exact le_rfl
  | null _ ih => exact ih
  | ref _ _ _ ih => exact (le_bump _ _ _).trans ih
  | node _ _ _ ih1 ih2 => exact (le_bump _ _ _).trans (ih1.trans ih2)

/-! ## One visit -/

/-- The dimensions can be written. -/
def Writable {ρ : Type} : Node ρ → Prop
  | .array ind _ => ∀ d ∈ (dimensions ind).getD [], d ≤ intMax
  | _ => True

/-- The visitor of the second sweep. -/
def visitor (heap : ν → Node (Option ν)) (p : Option ν) (w : Writer ν) :
    Except Fault (Bool × Writer ν) := do
  let (stop, w) ← localWrite heap p w
  pure (!stop, w)

theorem visitor_ok {p : Option ν} {w' : Writer ν} {stop : Bool}
    (h : localWrite heap p w = .ok (stop, w')) : visitor heap p w = .ok (!stop, w') := by
  simp [visitor, h, Bind.bind, Except.bind, pure, Except.pure]

theorem visitor_error {p : Option ν} {e : Fault} (h : localWrite heap p w = .error e) :
    visitor heap p w = .error e := by
  simp [visitor, h, Bind.bind, Except.bind]

/-- A heap without zombies, which is all that matters of the heap for the state of a
write. -/
def numbers (ν : Type) : ν → Object (Option ν) := fun _ => .number 0

/-- The state of `local_write` when the visits made are `c`, out of `fin` in all. -/
abbrev Writing (ks : List ν) (fin c : ν → ℕ) (w : Writer ν) : Prop :=
  Binary.Writing (numbers ν) ks fin c w.marks

omit [LinearOrder ν] in
theorem numbers_ne (a : ν) : numbers ν a ≠ .zombie := by
  simp [numbers]

/-- A node met again is written as a reference. -/
theorem localWrite_again (h : Writing ks fin c w) (hsorted : ks.Pairwise (· < ·))
    (hmem : ∀ a, a ∈ ks ↔ 2 ≤ fin a) {a : ν} (hc : c a ≠ 0) (ha : a ∈ ks) :
    localWrite heap (some a) w = .ok (true, w.emit (.ref (ks.idxOf a))) := by
  obtain ⟨h1, h2⟩ := h.entry hsorted ha
  have hmultiple : (w.marks.flags a).multiple = true := by simp [h.flags, (hmem a).mp ha]
  simp [localWrite, hmultiple, h1, h2, hc, numbers, Bind.bind, Except.bind]

/-- A node met for the first time is announced if it is relocated, and then written. -/
theorem localWrite_first (h : Writing ks fin c w) (hsorted : ks.Pairwise (· < ·))
    (hmem : ∀ a, a ∈ ks ↔ 2 ≤ fin a) {a : ν} (hc : c a = 0) :
    ∃ w', localWrite heap (some a) w = writeNode (heap a) w' ∧ Writing ks fin (bump c a) w' ∧
      w'.out = w.out ++ announce ks a := by
  by_cases ha : a ∈ ks
  · obtain ⟨h1, h2⟩ := h.entry hsorted ha
    have hmultiple : (w.marks.flags a).multiple = true := by simp [h.flags, (hmem a).mp ha]
    refine ⟨{ w.emit (.defn (ks.idxOf a)) with marks := w.marks.define (ks.idxOf a) }, ?_,
      h.define hsorted ha (numbers_ne a), by simp [Writer.emit, announce, ha]⟩
    simp [localWrite, hmultiple, h1, h2, hc, Bind.bind, Except.bind]
  · have hmultiple : (w.marks.flags a).multiple = false := by simp [h.flags, (hmem a).not.mp ha]
    exact ⟨w, by simp [localWrite, hmultiple], h.visit (Or.inr (Or.inr ha)),
      by simp [announce, ha]⟩

omit [LinearOrder ν] in
/-- A node that can be written is, and the sweep goes on where there is something to go
through. -/
theorem writeNode_ok {o : Node (Option ν)} (ho : Writable o) (w : Writer ν) :
    ∃ stop, writeNode o w = .ok (stop, w.emit (nodeToken o)) ∧ (stop = true → o.children = []) := by
  cases o with
  | cons car cdr => exact ⟨false, rfl, fun h => absurd h (by simp)⟩
  | number x => exact ⟨true, rfl, fun _ => rfl⟩
  | array ind data =>
      refine ⟨false, ?_, fun h => absurd h (by simp)⟩
      rw [writeNode]
      exact if_pos ho

omit [LinearOrder ν] in
theorem writeNode_error {o : Node (Option ν)} (ho : ¬ Writable o) (w : Writer ν) :
    ∃ e, writeNode o w = .error e := by
  cases o with
  | cons car cdr => exact absurd trivial ho
  | number x => exact absurd trivial ho
  | array ind data =>
      refine ⟨.error "array dimension too large for binary format", ?_⟩
      rw [writeNode]
      exact if_neg ho

/-! ## The second sweep -/

/-- The references are written, and all nodes visited for the first time can be. -/
def Writes (heap : ν → Node (Option ν)) (ks : List ν) (fin c c' : ν → ℕ) (depth : ℕ)
    (ps : List (Option ν)) (w : Writer ν) : Prop :=
  (∃ w' ts, walkAll (refs heap) Fault.depth (visitor heap) depth ps w = .ok w' ∧
      Writing ks fin c' w' ∧ w'.out = w.out ++ ts ∧ Emits heap ks c ps ts c' ∧
      ∀ a, c a = 0 → c' a ≠ 0 → Writable (heap a)) ∨
    ∃ e a, walkAll (refs heap) Fault.depth (visitor heap) depth ps w = .error e ∧
      c a = 0 ∧ c' a ≠ 0 ∧ ¬ Writable (heap a)

/-- **Writing visits what the tally visits**, and emits tokens that follow the grammar,
unless an array on the way has a dimension that is too large. -/
theorem localWrite_emits (hsorted : ks.Pairwise (· < ·)) (hmem : ∀ a, a ∈ ks ↔ 2 ≤ fin a) :
    ∀ depth ps (c c' : ν → ℕ) w, Writing ks fin c w →
      walkAll (refs heap) Fault.depth tally depth ps c = .ok c' → (∀ a, c' a ≤ fin a) →
      Writes heap ks fin c c' depth ps w := by
  intro depth
  induction depth with
  | zero =>
      intro ps c c' w h h' _
      cases ps with
      | nil =>
          cases h'
          exact Or.inl ⟨w, [], rfl, h, by simp, .nil, fun a ha ha' => absurd ha ha'⟩
      | cons p ps => simp [walk, Bind.bind, Except.bind] at h'
  | succ depth ihdepth =>
      intro ps
      induction ps with
      | nil =>
          intro c c' w h h' _
          cases h'
          exact Or.inl ⟨w, [], rfl, h, by simp, .nil, fun a ha ha' => absurd ha ha'⟩
      | cons p ps ih =>
          intro c c' w h h' hle
          obtain ⟨c1, hhead, htail⟩ := walkAll_ok.mp h'
          have hback : ∀ a, c1 a ≤ c' a := by
            have hall := walkAll_backward_of
              (walk_backward (tally_backward c') (depth + 1)) ps c1 c' htail
            exact hall fun _ => le_rfl
          have hle1 : ∀ a, c1 a ≤ fin a := fun a => (hback a).trans (hle a)
          -- what is left to do after the head has been written
          have hrest : ∀ w1, Writing ks fin c1 w1 → ∀ ts, w1.out = w.out ++ ts →
              walk (refs heap) Fault.depth (visitor heap) (depth + 1) p w = .ok w1 →
              (∀ us, Emits heap ks c1 ps us c' → Emits heap ks c (p :: ps) (ts ++ us) c') →
              (∀ a, c a = 0 → c1 a ≠ 0 → Writable (heap a)) →
              (∀ a, c1 a = 0 → c a = 0) →
              Writes heap ks fin c c' (depth + 1) (p :: ps) w := by
            intro w1 hw1 ts hout hwalk hemits hwritable hzero
            rcases ih c1 c' w1 hw1 htail hle with ⟨w2, us, hw2, hwriting, hout2, hem, hall⟩ |
              ⟨e, a, he, ha, ha', hnot⟩
            · refine Or.inl ⟨w2, ts ++ us, walkAll_ok.mpr ⟨w1, hwalk, hw2⟩, hwriting, ?_,
                hemits us hem, fun a ha ha' => ?_⟩
              · rw [hout2, hout, List.append_assoc]
              · by_cases h1 : c1 a = 0
                · exact hall a h1 ha'
                · exact hwritable a ha h1
            · refine Or.inr ⟨e, a, ?_, hzero a ha, ha', hnot⟩
              rw [walkAll_cons, hwalk]
              exact he
          obtain ⟨go, c0, hvisit, hbelow⟩ := walk_ok.mp hhead
          cases p with
          | none =>
              cases hvisit
              obtain rfl : c = c1 := by
                rcases hbelow with ⟨hfalse, _⟩ | ⟨_, hc1⟩
                · exact absurd hfalse (by simp)
                · exact hc1
              refine hrest (w.emit .nil) h [.nil] rfl ?_ (fun us hus => .null hus)
                (fun a ha ha' => absurd ha ha') fun a ha => ha
              have hnil : localWrite heap none w = .ok (true, w.emit .nil) := rfl
              exact walk_ok.mpr ⟨false, _, visitor_ok hnil, Or.inr ⟨rfl, rfl⟩⟩
          | some a =>
              cases hvisit
              by_cases hc : c a = 0
              · obtain ⟨w1, hw1, hwriting, hout⟩ := @localWrite_first ν _ heap ks c fin w h
                  hsorted hmem a hc
                have hchildren : walkAll (refs heap) Fault.depth tally depth (refs heap a)
                    (bump c a) = .ok c1 := by
                  rcases hbelow with ⟨_, hbelow⟩ | ⟨hfalse, _⟩
                  · exact hbelow
                  · simp [hc] at hfalse
                have hbump : ∀ b, bump c a b ≤ c1 b := by
                  have hall := walkAll_backward_of (walk_backward (tally_backward c1) depth)
                    (refs heap a) (bump c a) c1 hchildren
                  exact hall fun _ => le_rfl
                have ha1 : c1 a ≠ 0 := by
                  have hone := hbump a
                  rw [bump_self] at hone
                  omega
                have hzero : ∀ b, c1 b = 0 → c b = 0 := by
                  intro b hb
                  have hle := (le_bump c a b).trans (hbump b)
                  omega
                have ha' : c' a ≠ 0 := by
                  have hle := hback a
                  omega
                by_cases hok : Writable (heap a)
                · obtain ⟨stop, hstop, hnone⟩ := writeNode_ok hok w1
                  rcases ihdepth (refs heap a) (bump c a) c1 (w1.emit (nodeToken (heap a)))
                    hwriting hchildren hle1 with ⟨w2, ts, hw2, hwriting2, hout2, hem, hall⟩ |
                    ⟨e, b, he, hb, hb1, hnot⟩
                  · refine hrest w2 hwriting2 (announce ks a ++ nodeToken (heap a) :: ts) ?_ ?_
                      (fun us hus => ?_) (fun b hb hb1 => ?_) hzero
                    · rw [hout2, Writer.emit, hout]
                      simp
                    · refine walk_ok.mpr ⟨!stop, _, visitor_ok (hw1.trans hstop), ?_⟩
                      cases stop with
                      | false => exact Or.inl ⟨rfl, hw2⟩
                      | true =>
                          have hnil : refs heap a = [] := hnone rfl
                          rw [hnil] at hw2
                          cases hw2
                          exact Or.inr ⟨rfl, rfl⟩
                    · have hnode := Emits.node hc hem hus
                      simpa using hnode
                    · by_cases hba : b = a
                      · exact hba ▸ hok
                      · exact hall b (by simpa [hba] using hb) hb1
                  · refine Or.inr ⟨e, b, ?_, ?_, ?_, hnot⟩
                    · have hgo : stop = false := by
                        cases stop with
                        | false => rfl
                        | true =>
                            have hnil : refs heap a = [] := hnone rfl
                            rw [hnil] at he
                            cases he
                      have hvisitor : visitor heap (some a) w =
                          .ok (true, w1.emit (nodeToken (heap a))) := by
                        rw [visitor_ok (hw1.trans hstop), hgo]
                        rfl
                      rw [walkAll_cons, walk_succ, hvisitor]
                      show (walkAll (refs heap) Fault.depth (visitor heap) depth (refs heap a) _
                        >>= _) = _
                      rw [he]
                      rfl
                    · have hle := le_bump c a b
                      omega
                    · have hle := hback b
                      omega
                · obtain ⟨e, he⟩ := writeNode_error hok w1
                  refine Or.inr ⟨e, a, ?_, hc, ha', hok⟩
                  rw [walkAll_cons, walk_succ, visitor_error (hw1.trans he)]
                  rfl
              · obtain rfl : bump c a = c1 := by
                  rcases hbelow with ⟨hgo, _⟩ | ⟨_, hc1⟩
                  · exact absurd (by simpa using hgo) hc
                  · exact hc1
                have ha : a ∈ ks := by
                  have hone := hle1 a
                  rw [bump_self] at hone
                  exact (hmem a).mpr (by omega)
                refine hrest (w.emit (.ref (ks.idxOf a))) (h.visit (Or.inr (Or.inl hc)))
                  [.ref (ks.idxOf a)] rfl ?_ (fun us hus => .ref hc ha hus) (fun b hb hb1 => ?_)
                  fun b hb => ?_
                · exact walk_ok.mpr ⟨false, _, visitor_ok (localWrite_again h hsorted hmem hc ha),
                    Or.inr ⟨rfl, rfl⟩⟩
                · by_cases hba : b = a
                  · exact absurd (hba ▸ hb) hc
                  · exact absurd hb (by simpa [hba] using hb1)
                · have hle := le_bump c a b
                  omega

/-! ## The image -/

/-- What a write puts on the file, as a tally `visits` of the graph and an emission over the
relocated nodes `ks`. -/
structure Written (heap : ν → Node (Option ν)) (p : Option ν) (image : Image) (visits : ν → ℕ)
    (ks : List ν) : Prop where
  sorted : ks.Pairwise (· < ·)
  relocn : image.relocn = ks.length
  emits : Emits heap ks (fun _ => 0) [p] image.tokens visits

variable [Fintype ν]

/-- The nodes met through several references. -/
noncomputable def shared (heap : ν → Node (Option ν)) (p : Option ν) : Finset ν :=
  Finset.univ.filter fun a => 2 ≤ references (refs heap) [p] a

/-- **A write goes through** if and only if all arrays that it meets have dimensions that
can be written. -/
theorem writeImage_cases (heap : ν → Node (Option ν)) (p : Option ν) :
    ∃ visits ks, (∀ a, visits a ≠ 0 ↔ Reachable (refs heap) [p] a) ∧
      ks.length = (shared heap p).card ∧ (∀ a, a ∈ ks ↔ 2 ≤ visits a) ∧
      ((∃ image, writeImage heap p = .ok image ∧ Written heap p image visits ks ∧
          ∀ a, Reachable (refs heap) [p] a → Writable (heap a)) ∨
        ∃ e a, writeImage heap p = .error e ∧ Reachable (refs heap) [p] a ∧
          ¬ Writable (heap a)) := by
  obtain ⟨visits, hc, htallied⟩ := Binary.exists_tally (refs heap) p
  obtain ⟨marks, hmarks, hflagged⟩ := Binary.walk_condSetFlags hc
  have hreach : ∀ a, visits a ≠ 0 ↔ Reachable (refs heap) [p] a := fun a => by
    simpa using htallied.ne_zero_iff (fun _ _ => rfl) a
  have hsweep : sweep heap Binary.condSetFlags p ⟨fun _ => ⟨false, false⟩, [], []⟩ = .ok marks :=
    hmarks
  have hstart : Writing (keys marks.reloc) visits (fun _ => 0) ⟨marks, []⟩ := by
    refine ⟨hflagged.flags, rfl, fun a f hf => ?_⟩
    simpa using ((hflagged.mem (a, f)).mp hf).1
  have hlength : (keys marks.reloc).length = (shared heap p).card := by
    have hnodup : (keys marks.reloc).Nodup := hflagged.sorted.imp fun hlt => ne_of_lt hlt
    have heq : (keys marks.reloc).toFinset = shared heap p := by
      ext a
      rw [List.mem_toFinset, hflagged.mem_keys, htallied.count_of_zero]
      simp [shared]
    rw [← heq, List.toFinset_card_of_nodup hnodup]
  have hall : walkAll (refs heap) Fault.depth tally (Fintype.card ν + 1) [p] (fun _ => 0) =
      .ok visits := walkAll_ok.mpr ⟨visits, hc, rfl⟩
  refine ⟨visits, keys marks.reloc, hreach, hlength, hflagged.mem_keys, ?_⟩
  rcases localWrite_emits hflagged.sorted hflagged.mem_keys _ [p] _ visits ⟨marks, []⟩ hstart hall
    fun _ => le_rfl with ⟨w, ts, hw, hwriting, hout, hemits, hwritable⟩ | ⟨e, a, he, -, ha, hnot⟩
  · left
    have hwrite : sweep heap (localWrite heap) p ⟨marks, []⟩ = .ok w := by
      obtain ⟨w', hw', hnil⟩ := walkAll_ok.mp hw
      cases hnil
      exact hw'
    obtain ⟨w', hclear, -⟩ := Binary.walk_condClearFlags htallied hwriting.flags
    have hsweep' : sweep heap Binary.condClearFlags p w.marks = .ok w' := hclear
    refine ⟨⟨w.marks.reloc.length, w.out⟩, ?_, ⟨hflagged.sorted, ?_, ?_⟩, fun a ha => ?_⟩
    · simp [writeImage, hsweep, hwrite, hsweep', Bind.bind, Except.bind, pure, Except.pure]
    · rw [← hwriting.keys_eq, Binary.length_keys]
    · rw [List.nil_append] at hout
      exact hout ▸ hemits
    · exact hwritable a rfl ((hreach a).mpr ha)
  · right
    refine ⟨e, a, ?_, (hreach a).mp ha, hnot⟩
    have hwrite : sweep heap (localWrite heap) p ⟨marks, []⟩ = .error e := by
      have hhead : walk (refs heap) Fault.depth (visitor heap) (Fintype.card ν + 1) p ⟨marks, []⟩ =
          .error e := by
        rw [walkAll_cons] at he
        cases hw : walk (refs heap) Fault.depth (visitor heap) (Fintype.card ν + 1) p
            ⟨marks, []⟩ with
        | ok w => simp [hw, Bind.bind, Except.bind] at he
        | error e' => simpa [hw, Bind.bind, Except.bind] using he
      exact hhead
    simp [writeImage, hsweep, hwrite, Bind.bind, Except.bind]

end Lush.LispArrays
