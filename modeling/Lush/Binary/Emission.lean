import Lush.Binary.Reloc

/-!
# What a write emits

`set_flags` and `local_write` are two traversals with different stopping rules:
the first stops at an object it has marked, the second at a relocated object
it has already defined.  Both are compared with the tally of the graph.

* `setFlags_ok`: the flags are those of the tally — `C_MARK` where an object
  was visited, `C_MULTIPLE` where it was visited twice — and the table holds
  the objects visited twice (`Flagged`).
* `localWrite_emits`: over such flags, writing visits what the tally visits,
  and the tokens follow the grammar `Emits`, indexed by the counters of the
  tally.
* `writeImage_ok`: the image of a write, as a tally and an emission.
-/

namespace Lush.Binary

open Traversal

variable {ν : Type} [LinearOrder ν]

/-! ## The first sweep -/

/-- The state that `set_flags` reaches when the tally reaches `c`. -/
structure Flagged (c : ν → ℕ) (w : Writer ν) : Prop where
  flags : ∀ a, w.flags a = ⟨decide (c a ≠ 0), decide (2 ≤ c a)⟩
  sorted : Sorted w.reloc
  mem : ∀ e, e ∈ w.reloc ↔ e.2 = .empty ∧ 2 ≤ c e.1
  out : w.out = []

theorem Flagged.mem_keys {c : ν → ℕ} {w : Writer ν} (h : Flagged c w) (a : ν) :
    a ∈ keys w.reloc ↔ 2 ≤ c a := by
  refine ⟨fun ha => ?_, fun ha => List.mem_map.mpr ⟨(a, .empty), (h.mem _).mpr ⟨rfl, ha⟩, rfl⟩⟩
  obtain ⟨e, he, rfl⟩ := List.mem_map.mp ha
  exact ((h.mem e).mp he).2

/-- The visitor of a sweep goes on where the action does not stop. -/
def visitor (action : Option ν → Writer ν → Except Fault (Bool × Writer ν)) (p : Option ν)
    (w : Writer ν) : Except Fault (Bool × Writer ν) := do
  let (stop, w) ← action p w
  pure (!stop, w)

omit [LinearOrder ν] in
theorem visitor_ok {action : Option ν → Writer ν → Except Fault (Bool × Writer ν)}
    {p : Option ν} {w w' : Writer ν} {stop : Bool} (h : action p w = .ok (stop, w')) :
    visitor action p w = .ok (!stop, w') := by
  simp [visitor, h, Bind.bind, Except.bind, pure, Except.pure]

/-- The flags of a visited object, one visit later. -/
theorem Flagged.setFlags {c : ν → ℕ} {w : Writer ν} (h : Flagged c w) (a b : ν) :
    (w.setFlags a ⟨true, decide (c a ≠ 0)⟩).flags b =
      ⟨decide (bump c a b ≠ 0), decide (2 ≤ bump c a b)⟩ := by
  by_cases hb : b = a
  · subst hb
    have : decide (c b = 0) = !decide (1 ≤ c b) := by
      rw [← decide_not, decide_eq_decide]
      omega
    simp [Writer.setFlags, this]
  · simp [Writer.setFlags, hb, h.flags]

/-- Visiting an object for the first time marks it. -/
theorem condSetFlags_first {c : ν → ℕ} {w : Writer ν} (h : Flagged c w) {a : ν} (ha : c a = 0) :
    ∃ w', condSetFlags (some a) w = .ok (false, w') ∧ Flagged (bump c a) w' := by
  have hflags : w.flags a = ⟨false, false⟩ := by simp [h.flags, ha]
  refine ⟨w.setFlags a ⟨true, false⟩, by simp [condSetFlags, hflags], ⟨fun b => ?_, h.sorted,
    fun e => ?_, h.out⟩⟩
  · simpa [ha] using h.setFlags a b
  · show e ∈ w.reloc ↔ _
    rw [h.mem]
    by_cases he : e.1 = a
    · simp [he, ha]
    · simp [he]

/-- Visiting it again enters it in the table, once. -/
theorem condSetFlags_again {c : ν → ℕ} {w : Writer ν} (h : Flagged c w) {a : ν} (ha : c a ≠ 0) :
    ∃ w', condSetFlags (some a) w = .ok (true, w') ∧ Flagged (bump c a) w' := by
  have hmark : (w.flags a).mark = true := by simp [h.flags, ha]
  have hset : { w.flags a with multiple := true } = (⟨true, decide (c a ≠ 0)⟩ : Flags) := by
    simp [hmark, ha]
  by_cases htwice : 2 ≤ c a
  · have hmultiple : (w.flags a).multiple = true := by simp [h.flags, htwice]
    refine ⟨w.setFlags a ⟨true, decide (c a ≠ 0)⟩, ?_, ⟨h.setFlags a, h.sorted, fun e => ?_,
      h.out⟩⟩
    · rw [← hset]
      simp [condSetFlags, hmark, hmultiple, Bind.bind, Except.bind, pure, Except.pure]
    · show e ∈ w.reloc ↔ _
      rw [h.mem]
      by_cases he : e.1 = a
      · have : 2 ≤ c a + 1 := by omega
        simp [he, htwice, this]
      · simp [he]
  · have hmultiple : (w.flags a).multiple = false := by simp [h.flags, htwice]
    obtain ⟨table, htable, hsorted, hmem⟩ :=
      insertReloc_ok h.sorted (p := a) (by rwa [h.mem_keys])
    refine ⟨{ w with reloc := table }.setFlags a ⟨true, decide (c a ≠ 0)⟩, ?_,
      ⟨h.setFlags a, hsorted, fun e => ?_, h.out⟩⟩
    · rw [← hset]
      simp [condSetFlags, hmark, hmultiple, htable, Bind.bind, Except.bind]
    · show e ∈ table ↔ _
      rw [hmem, h.mem]
      obtain ⟨b, f⟩ := e
      by_cases he : b = a
      · subst he
        have : 2 ≤ c b + 1 := by omega
        simp [htwice, this]
      · simp [he]

theorem condSetFlags_sim (children : ν → List (Option ν)) :
    StepSim children (visitor condSetFlags) tally (fun _ => True) (fun w c => Flagged c w) := by
  intro p w c go c' h hvisit _
  cases p with
  | none =>
      cases hvisit
      exact ⟨false, w, rfl, h, Or.inl rfl⟩
  | some a =>
      cases hvisit
      by_cases ha : c a = 0
      · obtain ⟨w', h1, h2⟩ := condSetFlags_first h ha
        exact ⟨true, w', visitor_ok h1, h2, Or.inl (by simp [ha])⟩
      · obtain ⟨w', h1, h2⟩ := condSetFlags_again h ha
        exact ⟨false, w', visitor_ok h1, h2, Or.inl (by simp [ha])⟩

section

variable [Fintype ν]

/-- The tally of a graph from one reference. -/
theorem exists_tally (children : ν → List (Option ν)) (p : Option ν) :
    ∃ c : ν → ℕ, walk children Fault.depth tally (Fintype.card ν + 1) p (fun _ => 0) =
      .ok c ∧ Tallied children [p] (fun _ => 0) c :=
  walk_tally _ p _ (card_unseen_lt _)

/-- The first sweep, over any graph. -/
theorem walk_condSetFlags {children : ν → List (Option ν)} {p : Option ν} {c : ν → ℕ}
    (hc : walk children Fault.depth tally (Fintype.card ν + 1) p (fun _ => 0) = .ok c) :
    ∃ w, walk children Fault.depth (visitor condSetFlags) (Fintype.card ν + 1) p
      ⟨fun _ => ⟨false, false⟩, [], []⟩ = .ok w ∧ Flagged c w := by
  have hinit : Flagged (fun _ : ν => 0) ⟨fun _ => ⟨false, false⟩, [], []⟩ :=
    ⟨fun _ => by simp, List.Pairwise.nil, fun e => by simp, rfl⟩
  exact walk_sim (fun _ _ _ _ _ _ => trivial) (condSetFlags_sim children) _ p _ _ _ hinit hc
    trivial

/-- **`set_flags` marks what the tally visits, and enters in the table what it
visits twice.** -/
theorem setFlags_ok {heap : ν → Object (Option ν)} {p : Option ν} {c : ν → ℕ}
    (hc : walk (refs heap) Fault.depth tally (Fintype.card ν + 1) p (fun _ => 0) = .ok c) :
    ∃ w, setFlags heap p ⟨fun _ => ⟨false, false⟩, [], []⟩ = .ok w ∧ Flagged c w :=
  walk_condSetFlags hc

end

/-! ## The grammar of the tokens -/

/-- The token of an object without references. -/
def leafToken : Object (Option ν) → Option Token
  | .number x => some (.number x)
  | .string s => some (.string s.bytes)
  | .symbol name => some (.symbol name.bytes)
  | _ => none

/-- The definition that comes before a relocated object. -/
def announce (ks : List ν) (a : ν) : List Token :=
  if a ∈ ks then [.defn (ks.idxOf a)] else []

/-- `Emits heap ks c p ts c'`: writing the reference `p`, when the visits made so
far are `c`, emits the tokens `ts` and leaves the visits at `c'`; `ks` holds the
relocated objects. -/
inductive Emits (heap : ν → Object (Option ν)) (ks : List ν) :
    (ν → ℕ) → Option ν → List Token → (ν → ℕ) → Prop
  | null {c} : Emits heap ks c none [.nil] c
  | zombie {c a} : heap a = .zombie → Emits heap ks c (some a) [.nil] (bump c a)
  | ref {c a} : heap a ≠ .zombie → c a ≠ 0 → a ∈ ks →
      Emits heap ks c (some a) [.ref (ks.idxOf a)] (bump c a)
  | leaf {c a t} : c a = 0 → leafToken (heap a) = some t →
      Emits heap ks c (some a) (announce ks a ++ [t]) (bump c a)
  | cons {c a car cdr ts us c1 c2} : c a = 0 → heap a = .cons car cdr →
      Emits heap ks (bump c a) car ts c1 → Emits heap ks c1 cdr us c2 →
      Emits heap ks c (some a) (announce ks a ++ .cons :: (ts ++ us)) c2

theorem Emits.le {heap : ν → Object (Option ν)} {ks : List ν} {c c' : ν → ℕ} {p : Option ν}
    {ts : List Token} (h : Emits heap ks c p ts c') (b : ν) : c b ≤ c' b := by
  induction h with
  | null => exact le_rfl
  | zombie _ => exact le_bump _ _ _
  | ref _ _ _ => exact le_bump _ _ _
  | leaf _ _ => exact le_bump _ _ _
  | cons _ _ _ _ ih1 ih2 => exact (le_bump _ _ _).trans (ih1.trans ih2)

/-! ## The second sweep -/

/-- The state of `local_write` when the visits made are `c`, out of `fin` in
all. -/
structure Writing (heap : ν → Object (Option ν)) (ks : List ν) (fin c : ν → ℕ) (w : Writer ν) :
    Prop where
  flags : ∀ a, w.flags a = ⟨decide (fin a ≠ 0), decide (2 ≤ fin a)⟩
  keys_eq : keys w.reloc = ks
  state : ∀ a f, (a, f) ∈ w.reloc → f = if c a ≠ 0 ∧ heap a ≠ .zombie then .defd else .empty

namespace Writing

variable {heap : ν → Object (Option ν)} {ks : List ν} {fin c : ν → ℕ} {w : Writer ν}

theorem emit (h : Writing heap ks fin c w) (t : Token) : Writing heap ks fin c (w.emit t) :=
  ⟨h.flags, h.keys_eq, h.state⟩

/-- The entry of a relocated object. -/
theorem entry (h : Writing heap ks fin c w) (hsorted : ks.Pairwise (· < ·)) {a : ν}
    (ha : a ∈ ks) :
    searchReloc w.reloc a = .ok (ks.idxOf a) ∧
      w.reloc[ks.idxOf a]? =
        some (a, if c a ≠ 0 ∧ heap a ≠ .zombie then .defd else .empty) := by
  have hkeys := h.keys_eq
  have hsorted' : Sorted w.reloc := by rwa [Sorted, hkeys]
  refine ⟨by rw [searchReloc_eq hsorted' (hkeys ▸ ha), hkeys], ?_⟩
  have hkey : (keys w.reloc)[ks.idxOf a]? = some a := by
    rw [hkeys, List.getElem?_eq_getElem (List.idxOf_lt_length_of_mem ha), List.getElem_idxOf]
  rw [keys, List.getElem?_map, Option.map_eq_some_iff] at hkey
  obtain ⟨⟨b, f⟩, hentry, hb⟩ := hkey
  simp only at hb
  subst hb
  rw [hentry, h.state b f (List.mem_of_getElem? hentry)]

/-- A visit that writes no definition. -/
theorem visit (h : Writing heap ks fin c w) {a : ν}
    (ha : heap a = .zombie ∨ c a ≠ 0 ∨ a ∉ ks) : Writing heap ks fin (bump c a) w := by
  refine ⟨h.flags, h.keys_eq, fun b f hb => ?_⟩
  rw [h.state b f hb]
  by_cases hba : b = a
  · subst hba
    have hmem : b ∈ ks := h.keys_eq ▸ List.mem_map.mpr ⟨_, hb, rfl⟩
    rcases ha with hz | hc | hnot
    · simp [hz]
    · simp [hc]
    · exact absurd hmem hnot
  · rw [bump_of_ne _ hba]

/-- The visit that writes the definition of a relocated object. -/
theorem define (h : Writing heap ks fin c w) (hsorted : ks.Pairwise (· < ·)) {a : ν}
    (ha : a ∈ ks) (hz : heap a ≠ .zombie) :
    Writing heap ks fin (bump c a) (w.define (ks.idxOf a)) := by
  have hnodup : ks.Nodup := hsorted.imp fun hlt => ne_of_lt hlt
  refine ⟨h.flags, by rw [Writer.define, keys_modify, h.keys_eq], fun b f hb => ?_⟩
  obtain ⟨k, hk⟩ := List.mem_iff_getElem?.mp hb
  rw [Writer.define, List.getElem?_modify] at hk
  obtain ⟨⟨b', f'⟩, hentry, heq⟩ := Option.map_eq_some_iff.mp hk
  have hb' : b' ∈ ks := h.keys_eq ▸ List.mem_map.mpr ⟨_, List.mem_of_getElem? hentry, rfl⟩
  have hkey : ks[k]? = some b' := by
    rw [← h.keys_eq, keys, List.getElem?_map, hentry]
    rfl
  by_cases hka : ks.idxOf a = k
  · rw [if_pos hka] at heq
    simp only [Prod.mk.injEq] at heq
    obtain ⟨rfl, rfl⟩ := heq
    have hba : b' = a := by
      rw [← hka, List.getElem?_eq_getElem (List.idxOf_lt_length_of_mem ha),
        List.getElem_idxOf, Option.some.injEq] at hkey
      exact hkey.symm
    subst hba
    simp [hz]
  · rw [if_neg hka] at heq
    simp only [Prod.mk.injEq] at heq
    obtain ⟨rfl, rfl⟩ := heq
    have hba : b' ≠ a := by
      rintro rfl
      obtain ⟨hlt, hget⟩ := List.getElem?_eq_some_iff.mp hkey
      exact hka (by rw [← hget, hnodup.idxOf_getElem])
    rw [bump_of_ne _ hba, ← h.state b' f' (List.mem_of_getElem? hentry)]

end Writing

section LocalWrite

variable {heap : ν → Object (Option ν)} {ks : List ν} {fin c : ν → ℕ} {w : Writer ν}

theorem localWrite_zombie {a : ν} (ha : heap a = .zombie) :
    localWrite heap (some a) w = .ok (true, w.emit .nil) := by
  simp [localWrite, ha]

/-- An object met again is written as a reference. -/
theorem localWrite_again (h : Writing heap ks fin c w) (hsorted : ks.Pairwise (· < ·))
    (hmem : ∀ a, a ∈ ks ↔ 2 ≤ fin a) {a : ν} (hz : heap a ≠ .zombie) (hc : c a ≠ 0)
    (ha : a ∈ ks) : localWrite heap (some a) w = .ok (true, w.emit (.ref (ks.idxOf a))) := by
  obtain ⟨h1, h2⟩ := h.entry hsorted ha
  have hmultiple : (w.flags a).multiple = true := by simp [h.flags, (hmem a).mp ha]
  simp [localWrite, hz, hmultiple, h1, h2, hc, Bind.bind, Except.bind]

/-- An object met for the first time is announced if it is relocated, and then
written. -/
theorem localWrite_first (h : Writing heap ks fin c w) (hsorted : ks.Pairwise (· < ·))
    (hmem : ∀ a, a ∈ ks ↔ 2 ≤ fin a) {a : ν} (hz : heap a ≠ .zombie) (hc : c a = 0) :
    ∃ w', localWrite heap (some a) w = .ok (writeObject (heap a) w') ∧
      Writing heap ks fin (bump c a) w' ∧ w'.out = w.out ++ announce ks a := by
  by_cases ha : a ∈ ks
  · obtain ⟨h1, h2⟩ := h.entry hsorted ha
    have hmultiple : (w.flags a).multiple = true := by simp [h.flags, (hmem a).mp ha]
    refine ⟨(w.emit (.defn (ks.idxOf a))).define (ks.idxOf a), ?_,
      (h.emit _).define hsorted ha hz, by simp [Writer.define, Writer.emit, announce, ha]⟩
    simp [localWrite, hz, hmultiple, h1, h2, hc, Bind.bind, Except.bind]
  · have hmultiple : (w.flags a).multiple = false := by
      simp [h.flags, (hmem a).not.mp ha]
    exact ⟨w, by simp [localWrite, hz, hmultiple], h.visit (Or.inr (Or.inr ha)),
      by simp [announce, ha]⟩

/-- **Writing visits what the tally visits**, and emits tokens that follow the
grammar. -/
theorem localWrite_emits (hsorted : ks.Pairwise (· < ·)) (hmem : ∀ a, a ∈ ks ↔ 2 ≤ fin a) :
    ∀ depth p (c c' : ν → ℕ) w, Writing heap ks fin c w →
      walk (refs heap) Fault.depth tally depth p c = .ok c' → (∀ a, c' a ≤ fin a) →
      ∃ w' ts, walk (refs heap) Fault.depth (visitor (localWrite heap)) depth p w = .ok w' ∧
        Writing heap ks fin c' w' ∧ w'.out = w.out ++ ts ∧ Emits heap ks c p ts c' := by
  intro depth
  induction depth with
  | zero => intro p c c' w _ h'; exact absurd h' (by simp [walk])
  | succ depth ih =>
      intro p c c' w h h' hle
      obtain ⟨go, c1, hvisit, hrest⟩ := walk_ok.mp h'
      cases p with
      | none =>
          cases hvisit
          rcases hrest with ⟨hfalse, _⟩ | ⟨_, rfl⟩
          · exact absurd hfalse (by simp)
          · exact ⟨w.emit .nil, [.nil], walk_ok.mpr ⟨false, _, rfl, Or.inr ⟨rfl, rfl⟩⟩,
              h.emit _, rfl, .null⟩
      | some a =>
          cases hvisit
          -- objects without references are visited and left
          have hleaf : (refs heap a = [] ∨ c a ≠ 0) → c' = bump c a := by
            rintro (hnil | hc)
            · rcases hrest with ⟨_, hrest⟩ | ⟨_, rfl⟩
              · rw [below_some, hnil] at hrest
                cases hrest
                rfl
              · rfl
            · rcases hrest with ⟨hgo, _⟩ | ⟨_, rfl⟩
              · exact absurd (by simpa using hgo) hc
              · rfl
          have hstop : ∀ w', localWrite heap (some a) w = .ok (true, w') →
              walk (refs heap) Fault.depth (visitor (localWrite heap)) (depth + 1) (some a) w =
                .ok w' :=
            fun w' hw' => walk_ok.mpr ⟨false, w', visitor_ok hw', Or.inr ⟨rfl, rfl⟩⟩
          by_cases hz : heap a = .zombie
          · obtain rfl := hleaf (Or.inl (by simp [refs, hz, Object.children]))
            exact ⟨w.emit .nil, [.nil], hstop _ (localWrite_zombie hz),
              (h.visit (Or.inl hz)).emit _, rfl, .zombie hz⟩
          by_cases hc : c a = 0
          · obtain ⟨w1, hw1, hwriting, hout⟩ := localWrite_first h hsorted hmem hz hc
            -- the leaf tokens
            have hdone : ∀ t, leafToken (heap a) = some t → refs heap a = [] →
                writeObject (heap a) w1 = (true, w1.emit t) →
                ∃ w' ts, walk (refs heap) Fault.depth (visitor (localWrite heap)) (depth + 1)
                    (some a) w = .ok w' ∧ Writing heap ks fin c' w' ∧ w'.out = w.out ++ ts ∧
                  Emits heap ks c (some a) ts c' := by
              intro t ht hnil hobject
              obtain rfl := hleaf (Or.inl hnil)
              exact ⟨w1.emit t, announce ks a ++ [t], hstop _ (by rw [hw1, hobject]),
                hwriting.emit t, by simp [Writer.emit, hout], .leaf hc ht⟩
            cases hobj : heap a with
            | cons car cdr =>
                have hbelow : refs heap a = [car, cdr] := by
                  simp [refs, hobj, Object.children]
                have hgo : (c a == 0) = true := by simp [hc]
                rcases hrest with ⟨_, hrest⟩ | ⟨hfalse, _⟩
                swap
                · exact absurd (hgo.symm.trans hfalse) (by simp)
                rw [below_some, hbelow] at hrest
                obtain ⟨c2, hcar, hrest⟩ := walkAll_ok.mp hrest
                obtain ⟨c3, hcdr, hnil⟩ := walkAll_ok.mp hrest
                cases hnil
                have hle2 : ∀ b, c2 b ≤ fin b :=
                  walk_backward (tally_backward fin) _ _ _ _ hcdr hle
                obtain ⟨w2, ts, hw2, hwriting2, hout2, hemits⟩ :=
                  ih car _ c2 (w1.emit .cons) (hwriting.emit _) hcar hle2
                obtain ⟨w3, us, hw3, hwriting3, hout3, hemits'⟩ :=
                  ih cdr c2 c' w2 hwriting2 hcdr hle
                refine ⟨w3, announce ks a ++ .cons :: (ts ++ us), ?_, hwriting3, ?_,
                  .cons hc hobj hemits hemits'⟩
                · have hcons : localWrite heap (some a) w = .ok (false, w1.emit .cons) := by
                    rw [hw1, hobj]
                    rfl
                  refine walk_ok.mpr ⟨true, w1.emit .cons, visitor_ok hcons, Or.inl ⟨rfl, ?_⟩⟩
                  rw [below_some, hbelow]
                  exact walkAll_ok.mpr ⟨w2, hw2, walkAll_ok.mpr ⟨w3, hw3, rfl⟩⟩
                · rw [hout3, hout2, Writer.emit, hout]
                  simp
            | number x =>
                exact hdone (.number x) (by rw [hobj]; rfl) (by simp [refs, hobj, Object.children])
                  (by rw [hobj]; rfl)
            | string s =>
                exact hdone (.string s.bytes) (by rw [hobj]; rfl)
                  (by simp [refs, hobj, Object.children]) (by rw [hobj]; rfl)
            | symbol name =>
                exact hdone (.symbol name.bytes) (by rw [hobj]; rfl)
                  (by simp [refs, hobj, Object.children]) (by rw [hobj]; rfl)
            | zombie => exact absurd hobj hz
          · obtain rfl := hleaf (Or.inr hc)
            have hmany : 2 ≤ fin a := by
              have := hle a
              rw [bump_self] at this
              omega
            have ha : a ∈ ks := (hmem a).mpr hmany
            exact ⟨w.emit (.ref (ks.idxOf a)), [.ref (ks.idxOf a)],
              hstop _ (localWrite_again h hsorted hmem hz hc ha),
              (h.visit (Or.inr (Or.inl hc))).emit _, rfl, .ref hz hc ha⟩

end LocalWrite

/-! ## The third sweep -/

/-- The flags while they are cleared: those of the tally `c` where the second
tally `d` has not passed. -/
def Clearing (c : ν → ℕ) (w : Writer ν) (d : ν → ℕ) : Prop :=
  ∀ a, w.flags a = if d a = 0 then ⟨true, decide (2 ≤ c a)⟩ else ⟨false, false⟩

theorem condClearFlags_sim (children : ν → List (Option ν)) (c : ν → ℕ) :
    StepSim children (visitor condClearFlags) tally (fun _ => True) (Clearing c) := by
  intro p w d go d' h hvisit _
  cases p with
  | none =>
      cases hvisit
      exact ⟨false, w, rfl, h, Or.inl rfl⟩
  | some a =>
      cases hvisit
      have hflags := h a
      by_cases ha : d a = 0
      · rw [if_pos ha] at hflags
        have hclear : condClearFlags (some a) w = .ok (false, w.setFlags a ⟨false, false⟩) := by
          simp [condClearFlags, hflags]
        refine ⟨true, w.setFlags a ⟨false, false⟩, visitor_ok hclear, fun b => ?_,
          Or.inl (by simp [ha])⟩
        by_cases hb : b = a
        · subst hb
          simp [Writer.setFlags]
        · simp [Writer.setFlags, hb, h b]
      · rw [if_neg ha] at hflags
        have hclear : condClearFlags (some a) w = .ok (true, w) := by
          simp [condClearFlags, hflags]
        refine ⟨false, w, visitor_ok hclear, fun b => ?_, Or.inl (by simp [ha])⟩
        by_cases hb : b = a
        · subst hb
          simp [hflags]
        · simp [hb, h b]

variable [Fintype ν]

/-- The third sweep, over any graph. -/
theorem walk_condClearFlags {children : ν → List (Option ν)} {p : Option ν} {c : ν → ℕ}
    {w : Writer ν} (hc : Tallied children [p] (fun _ => 0) c)
    (hflags : ∀ a, w.flags a = ⟨decide (c a ≠ 0), decide (2 ≤ c a)⟩) :
    ∃ w', walk children Fault.depth (visitor condClearFlags) (Fintype.card ν + 1) p w = .ok w' ∧
      ∀ a, w'.flags a = ⟨false, false⟩ := by
  -- the objects that carry a flag are those that the second tally has not passed
  let d0 : ν → ℕ := fun a => if c a = 0 then 1 else 0
  have hstart : Clearing c w d0 := by
    intro a
    by_cases ha : c a = 0 <;> simp [d0, hflags, ha]
  obtain ⟨d, hd, htallied⟩ : ∃ d, walk children Fault.depth tally (Fintype.card ν + 1) p d0 =
      .ok d ∧ Tallied children [p] d0 d :=
    walk_tally (Fintype.card ν + 1) p d0 (card_unseen_lt _)
  obtain ⟨w', hw', hclear⟩ := walk_sim (fun _ _ _ _ _ _ => trivial)
    (condClearFlags_sim children c) _ p w d0 d hstart hd trivial
  refine ⟨w', hw', fun a => ?_⟩
  have hreach := hc.ne_zero_iff (fun _ _ => rfl)
  have hpassed : d a ≠ 0 := by
    rw [htallied.ne_zero_iff fun b hb => if_neg ((hreach b).mpr (Or.inr hb))]
    by_cases ha : c a = 0
    · exact Or.inl (by simp [d0, ha])
    · exact Or.inr (((hreach a).mp ha).resolve_left (by simp))
  rw [hclear a, if_neg hpassed]

/-- **`clear_flags` undoes the flags of `set_flags`.** -/
theorem clearFlags_ok {heap : ν → Object (Option ν)} {p : Option ν} {c : ν → ℕ} {w : Writer ν}
    (hc : Tallied (refs heap) [p] (fun _ => 0) c)
    (hflags : ∀ a, w.flags a = ⟨decide (c a ≠ 0), decide (2 ≤ c a)⟩) :
    ∃ w', clearFlags heap p w = .ok w' ∧ ∀ a, w'.flags a = ⟨false, false⟩ :=
  walk_condClearFlags hc hflags

/-! ## The image -/

/-- What a write puts on the file, as a tally `visits` of the graph and an
emission over the relocated objects `ks`. -/
structure Written (heap : ν → Object (Option ν)) (p : Option ν) (image : Image)
    (visits : ν → ℕ) (ks : List ν) : Prop where
  tallied : Tallied (refs heap) [p] (fun _ => 0) visits
  sorted : ks.Pairwise (· < ·)
  mem_iff : ∀ a, a ∈ ks ↔ 2 ≤ visits a
  relocn : image.relocn = ks.length
  emits : Emits heap ks (fun _ => 0) p image.tokens visits

/-- The objects met through several references. -/
noncomputable def shared (heap : ν → Object (Option ν)) (p : Option ν) : Finset ν :=
  Finset.univ.filter fun a => 2 ≤ references (refs heap) [p] a

namespace Written

variable {heap : ν → Object (Option ν)} {p : Option ν} {image : Image} {visits : ν → ℕ}
  {ks : List ν}

theorem nodup (h : Written heap p image visits ks) : ks.Nodup :=
  h.sorted.imp fun hlt => ne_of_lt hlt

/-- The writer visits what can be reached. -/
theorem visits_iff (h : Written heap p image visits ks) (a : ν) :
    visits a ≠ 0 ↔ Reachable (refs heap) [p] a := by
  simpa using h.tallied.ne_zero_iff (fun _ _ => rfl) a

/-- The relocated objects are the shared ones. -/
theorem mem_shared (h : Written heap p image visits ks) (a : ν) : a ∈ ks ↔ a ∈ shared heap p := by
  rw [h.mem_iff, h.tallied.count_of_zero]
  simp [shared]

theorem length_eq (h : Written heap p image visits ks) : ks.length = (shared heap p).card := by
  have heq : ks.toFinset = shared heap p := by
    ext a
    rw [List.mem_toFinset, h.mem_shared]
  rw [← heq, List.toFinset_card_of_nodup h.nodup]

end Written

/-- **A write goes through on every graph**, and leaves no flag behind. -/
theorem writeImage_ok (heap : ν → Object (Option ν)) (p : Option ν) :
    ∃ image w visits ks, writeImage heap p = .ok (image, w) ∧
      (∀ a, w.flags a = ⟨false, false⟩) ∧ Written heap p image visits ks := by
  obtain ⟨c, hc, htallied⟩ := exists_tally (refs heap) p
  obtain ⟨w1, hw1, hflagged⟩ := setFlags_ok hc
  have hstart : Writing heap (keys w1.reloc) c (fun _ => 0) w1 := by
    refine ⟨hflagged.flags, rfl, fun a f hf => ?_⟩
    simpa using ((hflagged.mem (a, f)).mp hf).1
  obtain ⟨w2, ts, hw2, hwriting, hout, hemits⟩ :=
    localWrite_emits hflagged.sorted hflagged.mem_keys _ p _ c w1 hstart hc fun _ => le_rfl
  obtain ⟨w3, hw3, hclear⟩ := clearFlags_ok htallied hwriting.flags
  have hlength : w2.reloc.length = (keys w1.reloc).length := by
    rw [← length_keys, hwriting.keys_eq]
  have htokens : w2.out = ts := by
    rw [hout, hflagged.out, List.nil_append]
  refine ⟨⟨w2.reloc.length, w2.out⟩, w3, c, keys w1.reloc, ?_, hclear, htallied,
    hflagged.sorted, hflagged.mem_keys, hlength, htokens ▸ hemits⟩
  have hw2' : sweep heap (localWrite heap) p w1 = .ok w2 := hw2
  simp [writeImage, hw1, hw2', hw3, Bind.bind, Except.bind, pure, Except.pure]

end Lush.Binary
