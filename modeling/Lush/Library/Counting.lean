import Lush.Library.Traversal

/-!
# Reference counting

A store has a counter for each cell, and a list of the free cells.  Releasing a
reference takes one from the counter of its target; at zero the references held
by the target are released as well, and the cell goes to the free list.  Which
references are released before the cell is put there, and which after, is a
parameter (`parts`).

The counters are *exact* when each is the number of references to its cell from
the roots, from the cells in use, and from the references that wait for their
release.  A release consumes the reference that it waits for, and nothing else
(`release_ok`).
-/

namespace Lush.Counting

open Traversal

variable {ν ε : Type*}

/-- The counters, and the free list. -/
structure Store (ν : Type*) where
  count : ν → ℕ
  free : List ν

/-- The references held by a cell. -/
def held (parts : ν → List (Option ν) × List (Option ν)) (a : ν) : List (Option ν) :=
  (parts a).1 ++ (parts a).2

/-- The release of a reference.  `deep` is the error reported when the recursion
is deeper than its bound. -/
def release [DecidableEq ν] (parts : ν → List (Option ν) × List (Option ν)) (deep : ε) :
    ℕ → Option ν → Store ν → Except ε (Store ν)
  | 0, _, _ => .error deep
  | _ + 1, none, s => .ok s
  | depth + 1, some a, s =>
      let s := { s with count := Function.update s.count a (s.count a - 1) }
      if s.count a = 0 then do
        let s ← (parts a).1.foldlM (fun s q => release parts deep depth q s) s
        (parts a).2.foldlM (fun s q => release parts deep depth q s) { s with free := a :: s.free }
      else
        .ok s

/-- The release of several references, one after the other. -/
def releaseAll [DecidableEq ν] (parts : ν → List (Option ν) × List (Option ν)) (deep : ε)
    (depth : ℕ) (ps : List (Option ν)) (s : Store ν) : Except ε (Store ν) :=
  ps.foldlM (fun s q => release parts deep depth q s) s

/-! ## Exact counters -/

section Exact

variable [Fintype ν] [DecidableEq ν]

/-- The cells in use. -/
def used (s : Store ν) : Finset ν :=
  Finset.univ.filter fun a => s.count a ≠ 0

omit [DecidableEq ν] in
@[simp] theorem mem_used {s : Store ν} {a : ν} : a ∈ used s ↔ s.count a ≠ 0 := by
  simp [used]

/-- The counters are exact, while the references `pending` wait for their
release; the cells of `limbo` are at zero, but not yet in the free list. -/
structure Exact (parts : ν → List (Option ν) × List (Option ν)) (roots : List (Option ν))
    (limbo : List ν) (pending : List (Option ν)) (s : Store ν) : Prop where
  count : ∀ a, s.count a = roots.count (some a) + pending.count (some a) +
    ∑ b ∈ used s, (held parts b).count (some a)
  nodup : s.free.Nodup
  mem_free : ∀ a, a ∈ s.free ↔ s.count a = 0 ∧ a ∉ limbo
  dead : ∀ a ∈ limbo, s.count a = 0
  limbo_nodup : limbo.Nodup

variable {parts : ν → List (Option ν) × List (Option ν)} {roots pending : List (Option ν)}
  {limbo : List ν} {s : Store ν} {a : ν} {deep : ε}

namespace Exact

theorem pending_none (h : Exact parts roots limbo (none :: pending) s) :
    Exact parts roots limbo pending s where
  count b := by
    rw [h.count b, List.count_cons_of_ne (by simp)]
  nodup := h.nodup
  mem_free := h.mem_free
  dead := h.dead
  limbo_nodup := h.limbo_nodup

/-- A reference that waits is counted. -/
theorem pos (h : Exact parts roots limbo (some a :: pending) s) : 0 < s.count a := by
  rw [h.count a, List.count_cons_self]
  omega

/-- A root becomes a reference that waits for its release. -/
theorem unroot {roots' : List (Option ν)} {p : Option ν} (h : Exact parts roots limbo pending s)
    (hroots : roots.Perm (p :: roots')) : Exact parts roots' limbo (p :: pending) s := by
  refine ⟨fun b => ?_, h.nodup, h.mem_free, h.dead, h.limbo_nodup⟩
  rw [h.count b, hroots.count_eq]
  simp only [List.count_cons]
  omega

/-- Taking one from the counter of a cell that stays in use. -/
theorem decrement (h : Exact parts roots limbo (some a :: pending) s) (hne : s.count a - 1 ≠ 0) :
    Exact parts roots limbo pending
      { s with count := Function.update s.count a (s.count a - 1) } := by
  have hzero : ∀ b, Function.update s.count a (s.count a - 1) b = 0 ↔ s.count b = 0 := by
    intro b
    by_cases hb : b = a
    · subst hb
      rw [Function.update_self]
      omega
    · rw [Function.update_of_ne hb]
  have hused : used { s with count := Function.update s.count a (s.count a - 1) } = used s := by
    ext b
    simp only [mem_used, ne_eq, hzero b]
  refine ⟨fun b => ?_, h.nodup, fun b => ?_, fun b hb => (hzero b).mpr (h.dead b hb),
    h.limbo_nodup⟩
  · rw [hused]
    have hb := h.count b
    by_cases hba : b = a
    · subst hba
      rw [List.count_cons_self] at hb
      simp only [Function.update_self]
      omega
    · rw [List.count_cons_of_ne (by simpa using Ne.symm hba)] at hb
      simpa only [Function.update_of_ne hba] using hb
  · simp only [hzero b]
    exact h.mem_free b

/-- The last reference to a cell is gone: what it holds waits now. -/
theorem die (h : Exact parts roots limbo (some a :: pending) s) (hone : s.count a - 1 = 0) :
    Exact parts roots (a :: limbo) (held parts a ++ pending)
      { s with count := Function.update s.count a (s.count a - 1) } := by
  have hpos := h.pos
  have hmem : a ∈ used s := mem_used.mpr (by omega)
  have hused : used { s with count := Function.update s.count a (s.count a - 1) } =
      (used s).erase a := by
    ext b
    by_cases hb : b = a
    · subst hb
      simp [hone]
    · simp [hb]
  have hfresh : a ∉ limbo := fun hlimbo => by
    have := h.dead a hlimbo
    omega
  refine ⟨fun b => ?_, h.nodup, fun b => ?_, fun b hb => ?_, List.nodup_cons.mpr
    ⟨hfresh, h.limbo_nodup⟩⟩
  · have hb := h.count b
    rw [← Finset.add_sum_erase _ _ hmem] at hb
    rw [hused, List.count_append]
    by_cases hba : b = a
    · subst hba
      rw [List.count_cons_self] at hb
      simp only [Function.update_self]
      omega
    · rw [List.count_cons_of_ne (by simpa using Ne.symm hba)] at hb
      simp only [Function.update_of_ne hba]
      omega
  · by_cases hba : b = a
    · subst hba
      simp only [h.mem_free, List.mem_cons, true_or, not_true, and_false, iff_false]
      omega
    · simp [h.mem_free, hba]
  · by_cases hba : b = a
    · subst hba
      simpa using hone
    · simp only [Function.update_of_ne hba]
      exact h.dead b ((List.mem_cons.mp hb).resolve_left hba)

/-- A cell goes to the free list. -/
theorem bury (h : Exact parts roots (a :: limbo) pending s) :
    Exact parts roots limbo pending { s with free := a :: s.free } := by
  obtain ⟨hfresh, hnodup⟩ := List.nodup_cons.mp h.limbo_nodup
  have hdead := h.dead a (by simp)
  refine ⟨h.count, List.nodup_cons.mpr ⟨fun hmem => ?_, h.nodup⟩, fun b => ?_,
    fun b hb => h.dead b (by simp [hb]), hnodup⟩
  · exact ((h.mem_free a).mp hmem).2 (by simp)
  · by_cases hba : b = a
    · subst hba
      simp [hdead, hfresh]
    · simp [h.mem_free, hba]

/-- **What the roots reach is in use.** -/
theorem ne_zero_of_reachable (h : Exact parts roots limbo pending s)
    (ha : Reachable (held parts) roots a) : s.count a ≠ 0 := by
  refine ha.induction (P := fun b => s.count b ≠ 0) (fun b hb => ?_) fun b c hb hc => ?_
  · have hcount := h.count b
    have hpos := List.count_pos_iff.mpr hb
    omega
  · have hcount := h.count c
    have hpos := List.count_pos_iff.mpr hc
    have hle : (held parts b).count (some c) ≤ ∑ b ∈ used s, (held parts b).count (some c) :=
      Finset.single_le_sum (f := fun b => (held parts b).count (some c)) (fun _ _ => Nat.zero_le _)
        (mem_used.mpr hb)
    omega

end Exact

/-! ## The release -/

omit [DecidableEq ν] in
theorem used_card_le {s' : Store ν} (h : ∀ a, s'.count a ≤ s.count a) :
    (used s').card ≤ (used s).card := by
  refine Finset.card_le_card fun a ha => ?_
  have := h a
  rw [mem_used] at ha ⊢
  omega

theorem used_card_lt {n : ℕ} (ha : s.count a ≠ 0) (hn : n = 0) :
    (used { s with count := Function.update s.count a n }).card < (used s).card := by
  refine Finset.card_lt_card ⟨fun b hb => ?_, fun hsub => ?_⟩
  · by_cases hba : b = a
    · subst hba
      exact mem_used.mpr ha
    · simpa [hba] using hb
  · simpa [hn] using hsub (mem_used.mpr ha)

theorem releaseAll_ok_of {depth : ℕ}
    (ih : ∀ p limbo pending (s : Store ν), (used s).card < depth →
      Exact parts roots limbo (p :: pending) s →
      ∃ s', release parts deep depth p s = .ok s' ∧ Exact parts roots limbo pending s' ∧
        (∀ a, s'.count a ≤ s.count a) ∧ ∀ a ∈ p, s'.count a < s.count a) :
    ∀ ps limbo pending (s : Store ν), (used s).card < depth →
      Exact parts roots limbo (ps ++ pending) s →
      ∃ s', releaseAll parts deep depth ps s = .ok s' ∧ Exact parts roots limbo pending s' ∧
        ∀ a, s'.count a ≤ s.count a := by
  intro ps
  induction ps with
  | nil => exact fun limbo pending s _ h => ⟨s, rfl, h, fun _ => le_rfl⟩
  | cons p ps ihps =>
      intro limbo pending s hdepth h
      obtain ⟨s1, hs1, h1, hle1, -⟩ := ih p limbo (ps ++ pending) s hdepth h
      obtain ⟨s2, hs2, h2, hle2⟩ :=
        ihps limbo pending s1 (Nat.lt_of_le_of_lt (used_card_le hle1) hdepth) h1
      refine ⟨s2, ?_, h2, fun a => (hle2 a).trans (hle1 a)⟩
      rw [releaseAll, List.foldlM_cons, hs1]
      exact hs2

/-- **A release consumes its reference**, and a depth above the number of cells
in use is enough for it. -/
theorem release_ok : ∀ depth p limbo pending (s : Store ν), (used s).card < depth →
    Exact parts roots limbo (p :: pending) s →
    ∃ s', release parts deep depth p s = .ok s' ∧ Exact parts roots limbo pending s' ∧
      (∀ a, s'.count a ≤ s.count a) ∧ ∀ a ∈ p, s'.count a < s.count a := by
  intro depth
  induction depth with
  | zero => exact fun p limbo pending s hdepth => absurd hdepth (Nat.not_lt_zero _)
  | succ depth ih =>
      intro p limbo pending s hdepth h
      cases p with
      | none => exact ⟨s, rfl, h.pending_none, fun _ => le_rfl, by simp⟩
      | some a =>
          have hpos := h.pos
          have hle : ∀ b, Function.update s.count a (s.count a - 1) b ≤ s.count b := by
            intro b
            by_cases hba : b = a
            · subst hba
              simp
            · rw [Function.update_of_ne hba]
          have hlt : ∀ b ∈ some a, Function.update s.count a (s.count a - 1) b < s.count b := by
            rintro b ⟨⟩
            rw [Function.update_self]
            omega
          by_cases hone : s.count a - 1 = 0
          · have hless := used_card_lt (n := s.count a - 1) (Nat.ne_of_gt hpos) hone
            have hdie := h.die hone
            rw [held, List.append_assoc] at hdie
            obtain ⟨s1, hs1, h1, hle1⟩ := releaseAll_ok_of ih _ _ _ _ (by omega) hdie
            have hdepth1 : (used { s1 with free := a :: s1.free }).card < depth :=
              Nat.lt_of_le_of_lt (used_card_le hle1) (by omega)
            obtain ⟨s2, hs2, h2, hle2⟩ := releaseAll_ok_of ih _ _ _ _ hdepth1 h1.bury
            have hle12 : ∀ b, s2.count b ≤ Function.update s.count a (s.count a - 1) b :=
              fun b => (hle2 b).trans (hle1 b)
            refine ⟨s2, ?_, h2, fun b => (hle12 b).trans (hle b),
              fun b hb => Nat.lt_of_le_of_lt (hle12 b) (hlt b hb)⟩
            simp only [release, Function.update_self, if_pos hone]
            rw [releaseAll] at hs1 hs2
            rw [hs1]
            exact hs2
          · refine ⟨_, ?_, h.decrement hone, hle, hlt⟩
            simp only [release, Function.update_self, if_neg hone]

end Exact

end Lush.Counting
