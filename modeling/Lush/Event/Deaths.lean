import Lush.Event.Discipline
import Lush.Library.Runs

/-!
# Nested deaths

An entry of the queue may hold the last reference to a handler.  When `ev_finalize`
takes it out, `UNLOCK` then runs the finalizer of that handler, which is `ev_finalize`
again, in the middle of the first loop.  The state has the loops that are not finished
as a stack, each with its handler and its `pp`.

The inner loop may take out the cell that the outer loop has in `pp`.  The `Cdr` of a
cell on the free list is `NIL`, so the outer loop ends there, and leaves what comes
after it (`outlived`).  Nothing else goes wrong (`no_event_outlives`).
-/

namespace Lush.Event

open Chains Runs

variable {η δ ε : Type}

/-! ## The transition system -/

/-- A loop of `ev_finalize` that is not finished. -/
structure Frame (η : Type) where
  handler : η
  pp : ℕ

/-- Whether the innermost loop goes on, or the program is in `UNLOCK` or outside. -/
inductive Control
  | client
  | loop
  deriving DecidableEq

/-- The queue, the loops from the innermost to the outermost, and the handlers whose
finalizers were run. -/
structure State (η δ ε : Type) where
  queue : Queue η δ ε
  stack : List (Frame η)
  control : Control
  dead : List η

inductive Action (η : Type)
  /-- The last reference to a handler goes, and its finalizer starts. -/
  | die (handler : η)
  /-- The innermost loop makes a round. -/
  | iterate
  /-- `UNLOCK` returns to the innermost loop. -/
  | ret

section Step

variable [DecidableEq η]

/-- A round of the innermost loop.  When the loop is finished, the finalizer returns to
the `UNLOCK` that called it, and when it takes a cell out it calls `UNLOCK`. -/
def iterate (s : State η δ ε) : Option (State η δ ε) :=
  match s.control, s.stack with
  | .loop, f :: below =>
      match finalizeRound f.handler s.queue f.pp with
      | .ok .finished => some { s with stack := below, control := .client }
      | .ok (.removed q) => some { s with queue := q, control := .client }
      | .ok (.passed p) => some { s with stack := { f with pp := p } :: below }
      | .error _ => none
  | _, _ => none

def step (s : State η δ ε) : Action η → Option (State η δ ε)
  | .die handler =>
      if s.control = .client ∧ handler ∉ s.dead then
        some { s with
          stack := ⟨handler, s.queue.head⟩ :: s.stack
          control := .loop
          dead := handler :: s.dead }
      else none
  | .iterate => iterate s
  | .ret =>
      if s.control = .client ∧ s.stack ≠ [] then some { s with control := .loop } else none

/-- Nothing is being finalized. -/
def quiet (q : Queue η δ ε) : State η δ ε := ⟨q, [], .client, []⟩

end Step

/-! ## Loops and their cells -/

/-- The queue has no event of the handler. -/
def Clear (q : Queue η δ ε) (handler : η) : Prop :=
  ∀ cells, Chain q.cdr q.head cells → ∀ c ∈ cells, evHndl q c ≠ some handler

/-- The innermost loop takes the cell `p` out in its next round. -/
def Takes (s : State η δ ε) (p : ℕ) : Prop :=
  s.control = .loop ∧ ∃ f below, s.stack = f :: below ∧ s.queue.cdr f.pp = some p ∧
    (evHndl s.queue p = none ∨ evHndl s.queue p = some f.handler)

/-- No loop further out, whose `pp` is the cell that is taken out, has something left to
do. -/
def Harmless (s : State η δ ε) (a : Action η) : Prop :=
  a = .iterate → ∀ p, Takes s p → ∀ f ∈ s.stack.tail, f.pp = p → Clear s.queue f.handler

/-- Behind `pp` are all events of the handler: the loop goes on. -/
def Frame.Live (q : Queue η δ ε) (cells : List ℕ) (f : Frame η) : Prop :=
  ∃ before after, cells = before ++ after ∧ f.pp = last q.head before ∧
    ∀ c ∈ before, evHndl q c ≠ some f.handler

/-- The cell in `pp` was taken out of the queue: the loop ends. -/
def Frame.Cut (q : Queue η δ ε) (cells : List ℕ) (f : Frame η) : Prop :=
  f.pp ∉ q.head :: cells ∧ q.cdr f.pp = none

theorem Frame.Live.mem {q : Queue η δ ε} {cells : List ℕ} {f : Frame η} (h : f.Live q cells) :
    f.pp ∈ q.head :: cells := by
  obtain ⟨before, after, rfl, hpp, -⟩ := h
  rw [hpp, ← List.cons_append]
  exact List.mem_append_left _ last_mem

/-- When a cell is taken out, the loops that have it in `pp` are cut, and the others
go on. -/
theorem Frame.Live.unlinked {q : Queue η δ ε} {before after : List ℕ} {p : ℕ} {f : Frame η}
    (h : f.Live q (before ++ p :: after)) (hne : f.pp ≠ p) :
    f.Live (Event.unlinked q (last q.head before) p) (before ++ after) := by
  obtain ⟨l1, l2, hcells, hpp, hclear⟩ := h
  rcases List.append_eq_append_iff.mp hcells with ⟨l, rfl, hl⟩ | ⟨l, rfl, hl⟩
  · cases l with
    | nil =>
        rw [List.append_nil] at hpp hclear
        exact ⟨before, after, rfl, hpp, hclear⟩
    | cons b l =>
        obtain ⟨rfl, rfl⟩ := List.cons.inj hl
        refine ⟨before ++ l, l2, (List.append_assoc ..).symm, ?_, fun c hc => hclear c ?_⟩
        · cases l with
          | nil => exact absurd (hpp.trans last_snoc) hne
          | cons b l =>
              rw [hpp, last_append, last_append]
              rfl
        · simp only [List.mem_append, List.mem_cons] at hc ⊢
          tauto
  · exact ⟨l1, l ++ after, List.append_assoc .., hpp, hclear⟩

theorem Frame.Cut.unlinked {q : Queue η δ ε} {before after : List ℕ} {p : ℕ} {f : Frame η}
    (h : f.Cut q (before ++ p :: after)) :
    f.Cut (Event.unlinked q (last q.head before) p) (before ++ after) := by
  obtain ⟨hpp, hcdr⟩ := h
  refine ⟨fun hmem => hpp ?_, ?_⟩
  · simp only [List.mem_cons, List.mem_append] at hmem ⊢
    tauto
  · have hp : f.pp ≠ p := fun heq => hpp (by simp [heq])
    have hlast : f.pp ≠ last q.head before := by
      intro heq
      apply hpp
      rw [heq, ← List.cons_append]
      exact List.mem_append_left _ last_mem
    change Function.update (Function.update q.cdr _ _) p none f.pp = none
    rw [Function.update_of_ne hp, Function.update_of_ne hlast, hcdr]

/-! ## What every step keeps -/

/-- The queue is linked up, and every loop goes on or is cut. -/
structure WellFormed (s : State η δ ε) (cells : List ℕ) : Prop where
  linked : Linked s.queue cells
  frames : ∀ f ∈ s.stack, f.Live s.queue cells ∨ f.Cut s.queue cells
  nodup : (s.stack.map (·.handler)).Nodup
  dead : ∀ f ∈ s.stack, f.handler ∈ s.dead

/-- A loop that is not cut will take the events of a dead handler out, or there are
none. -/
def Covered (s : State η δ ε) (cells : List ℕ) : Prop :=
  ∀ h ∈ s.dead, (∃ f ∈ s.stack, f.handler = h ∧ f.pp ∈ s.queue.head :: cells) ∨
    ∀ c ∈ cells, evHndl s.queue c ≠ some h

variable {s s' : State η δ ε} {cells : List ℕ}

/-- What a round of the innermost loop does. -/
theorem iterate_cases [DecidableEq η] (hrun : iterate s = some s') :
    ∃ f below, s.control = .loop ∧ s.stack = f :: below ∧
      ((s.queue.cdr f.pp = none ∧ s' = { s with stack := below, control := .client }) ∨
      ∃ p, s.queue.cdr f.pp = some p ∧
        (((evHndl s.queue p = none ∨ evHndl s.queue p = some f.handler) ∧
          s' = { s with queue := unlinked s.queue f.pp p, control := .client }) ∨
        (¬(evHndl s.queue p = none ∨ evHndl s.queue p = some f.handler) ∧
          s' = { s with stack := { f with pp := p } :: below }))) := by
  unfold iterate at hrun
  cases hcontrol : s.control with
  | client => simp [hcontrol] at hrun
  | loop =>
      cases hstack : s.stack with
      | nil => simp [hcontrol, hstack] at hrun
      | cons f below =>
          refine ⟨f, below, rfl, rfl, ?_⟩
          simp only [hcontrol, hstack] at hrun
          unfold finalizeRound at hrun
          cases hnext : s.queue.cdr f.pp with
          | none =>
              simp only [hnext] at hrun
              exact .inl ⟨rfl, (Option.some.inj hrun).symm⟩
          | some p =>
              simp only [hnext] at hrun
              refine .inr ⟨p, rfl, ?_⟩
              by_cases htake : evHndl s.queue p = none ∨ evHndl s.queue p = some f.handler
              · simp only [if_pos htake, evRemove_eq hnext, Bind.bind, Except.bind] at hrun
                exact .inl ⟨htake, (Option.some.inj hrun).symm⟩
              · simp only [if_neg htake] at hrun
                exact .inr ⟨htake, (Option.some.inj hrun).symm⟩

theorem clear_iff (hlinked : Linked s.queue cells) {h : η} :
    Clear s.queue h ↔ ∀ c ∈ cells, evHndl s.queue c ≠ some h := by
  refine ⟨fun hclear => hclear cells hlinked.chain, fun hclear cells' hchain => ?_⟩
  rw [hchain.unique hlinked.chain]
  exact hclear

/-- Frames with the same handler are the same. -/
theorem WellFormed.frame_unique (h : WellFormed s cells) {f g : Frame η} (hf : f ∈ s.stack)
    (hg : g ∈ s.stack) (heq : f.handler = g.handler) : f = g :=
  List.inj_on_of_nodup_map h.nodup hf hg heq

/-- A loop that goes on after a cell is not cut. -/
theorem WellFormed.live (h : WellFormed s cells) {f : Frame η} (hf : f ∈ s.stack)
    (hpp : f.pp ∈ s.queue.head :: cells) : f.Live s.queue cells := by
  rcases h.frames f hf with hlive | hcut
  · exact hlive
  · exact absurd hpp hcut.1

theorem WellFormed.live_of_next (h : WellFormed s cells) {f : Frame η} (hf : f ∈ s.stack) {p : ℕ}
    (hnext : s.queue.cdr f.pp = some p) :
    ∃ before after, cells = before ++ p :: after ∧ f.pp = last s.queue.head before ∧
      ∀ c ∈ before, evHndl s.queue c ≠ some f.handler := by
  rcases h.frames f hf with ⟨before, after, rfl, hpp, hclear⟩ | hcut
  · have hchain := h.linked.chain.drop
    rw [← hpp] at hchain
    cases after with
    | nil => exact absurd (hchain.symm.trans hnext) (Option.some_ne_none p).symm
    | cons b after =>
        obtain rfl := Option.some.inj (hchain.1.symm.trans hnext)
        exact ⟨before, after, rfl, hpp, hclear⟩
  · exact absurd (hcut.2.symm.trans hnext) (Option.some_ne_none p).symm

/-- The loop is finished when there is no cell left, and no event of its handler is. -/
theorem WellFormed.finished (h : WellFormed s cells) {f : Frame η} {below : List (Frame η)}
    (hstack : s.stack = f :: below) (hnext : s.queue.cdr f.pp = none) :
    WellFormed { s with stack := below, control := .client } cells ∧
      (Covered { s with stack := below, control := .client } cells ↔ Covered s cells) := by
  obtain ⟨hlinked, hframes, hnodup, hdead⟩ := id h
  simp only [hstack, List.mem_cons, forall_eq_or_imp, List.map_cons] at hframes hnodup hdead
  refine ⟨⟨hlinked, hframes.2, (List.nodup_cons.mp hnodup).2, hdead.2⟩, fun hcov g hg => ?_, fun hcov g hg => ?_⟩
  · rcases hcov g hg with ⟨b, hb, hbg⟩ | hclear
    · refine .inl ⟨b, ?_, hbg⟩
      rw [hstack]
      exact List.mem_cons_of_mem f hb
    · exact .inr hclear
  · rcases hcov g hg with ⟨b, hb, rfl, hpp⟩ | hclear
    · rw [hstack] at hb
      rcases List.mem_cons.mp hb with rfl | hb
      · obtain ⟨before, after, rfl, hlast, hclear⟩ := h.live (hstack ▸ List.mem_cons_self) hpp
        have hchain := hlinked.chain.drop
        rw [← hlast] at hchain
        cases after with
        | nil => exact .inr (by simpa using hclear)
        | cons c after => exact absurd (hnext.symm.trans hchain.1) (by simp)
      · exact .inl ⟨b, hb, rfl, hpp⟩
    · exact .inr hclear

/-- The loop passes a cell of another handler. -/
theorem WellFormed.passed (h : WellFormed s cells) {f : Frame η} {below : List (Frame η)} {p : ℕ}
    (hstack : s.stack = f :: below) (hnext : s.queue.cdr f.pp = some p)
    (hkeep : ¬(evHndl s.queue p = none ∨ evHndl s.queue p = some f.handler)) :
    WellFormed { s with stack := { f with pp := p } :: below } cells ∧
      (Covered { s with stack := { f with pp := p } :: below } cells ↔ Covered s cells) := by
  obtain ⟨before, after, hcells, hpp, hclear⟩ := h.live_of_next (hstack ▸ List.mem_cons_self) hnext
  obtain ⟨hlinked, hframes, hnodup, hdead⟩ := h
  simp only [hstack, List.mem_cons, forall_eq_or_imp, List.map_cons] at hframes hnodup hdead
  have hp : p ∈ s.queue.head :: cells := by simp [hcells]
  have hfpp : f.pp ∈ s.queue.head :: cells := by
    rw [hpp, hcells, ← List.cons_append]
    exact List.mem_append_left _ last_mem
  refine ⟨⟨hlinked, fun g hg => ?_, hnodup, fun g hg => ?_⟩, ?_⟩
  · rcases List.mem_cons.mp hg with rfl | hg
    · refine .inl ⟨before ++ [p], after, by simp [hcells], by simp, fun c hc => ?_⟩
      rcases List.mem_append.mp hc with hc | hc
      · exact hclear c hc
      · obtain rfl := List.mem_singleton.mp hc
        exact fun heq => hkeep (.inr heq)
    · exact hframes.2 g hg
  · rcases List.mem_cons.mp hg with rfl | hg
    exacts [hdead.1, hdead.2 g hg]
  · refine forall₂_congr fun g _ => or_congr ?_ Iff.rfl
    rw [hstack, List.exists_mem_cons_iff, List.exists_mem_cons_iff]
    exact or_congr (and_congr_right' (iff_of_true hp hfpp)) Iff.rfl

/-- The loop takes a cell out: the loops further out that have the cell in `pp` are
cut, and this matters when events of their handlers are left. -/
theorem WellFormed.removed (h : WellFormed s cells) {f : Frame η} {below : List (Frame η)} {p : ℕ}
    (hstack : s.stack = f :: below) (hnext : s.queue.cdr f.pp = some p)
    (htake : evHndl s.queue p = none ∨ evHndl s.queue p = some f.handler) :
    ∃ cells', WellFormed { s with queue := unlinked s.queue f.pp p, control := .client } cells' ∧
      (Covered { s with queue := unlinked s.queue f.pp p, control := .client } cells' ↔
        Covered s cells ∧ ∀ g ∈ below, g.pp = p → Clear s.queue g.handler) := by
  obtain ⟨before, after, rfl, hpp, hclear⟩ := h.live_of_next (hstack ▸ List.mem_cons_self) hnext
  have hmem : ∀ c, c ∈ s.queue.head :: (before ++ p :: after) ↔
      c = p ∨ c ∈ s.queue.head :: (before ++ after) := by
    intro c
    simp only [List.mem_cons, List.mem_append]
    tauto
  have hcell : ∀ c, c ∈ before ++ p :: after ↔ c = p ∨ c ∈ before ++ after := by
    intro c
    simp only [List.mem_cons, List.mem_append]
    tauto
  have hlinked := h.linked.unlinked
  rw [← hpp] at hlinked
  have hpout : p ∉ s.queue.head :: (before ++ after) := (hlinked.unused p List.mem_cons_self).2
  have hcdr : (unlinked s.queue f.pp p).cdr p = none := Function.update_self ..
  have hfpp : f.pp ∈ s.queue.head :: (before ++ after) := by
    rw [hpp, ← List.cons_append]
    exact List.mem_append_left _ last_mem
  -- below the innermost loop there are other handlers, and `p` is not an event of theirs
  have hother : ∀ g ∈ below, evHndl s.queue p ≠ some g.handler := by
    intro g hg heq
    have hne : f.handler ≠ g.handler := by
      have hnodup := h.nodup
      rw [hstack] at hnodup
      exact fun hfg => (List.nodup_cons.mp hnodup).1 (List.mem_map.mpr ⟨g, hg, hfg.symm⟩)
    rcases htake with htake | htake
    · exact absurd (htake.symm.trans heq) (by simp)
    · exact hne (Option.some.inj (htake.symm.trans heq))
  refine ⟨before ++ after, ⟨hlinked, fun g hg => ?_, h.nodup, h.dead⟩, ?_⟩
  · change g ∈ s.stack at hg
    change g.Live (unlinked s.queue f.pp p) _ ∨ g.Cut (unlinked s.queue f.pp p) _
    by_cases hgp : g.pp = p
    · right
      rw [Frame.Cut, hgp]
      exact ⟨hpout, hcdr⟩
    · rw [hpp]
      exact (h.frames g hg).imp (fun hlive => hlive.unlinked hgp) Frame.Cut.unlinked
  · refine ⟨fun hcov => ⟨fun g hg => ?_, fun b hb hbp => ?_⟩, fun hcov g hg => ?_⟩
    · by_cases hgf : g = f.handler
      · refine .inl ⟨f, hstack ▸ List.mem_cons_self, hgf.symm, ?_⟩
        exact (hmem _).mpr (.inr hfpp)
      · rcases hcov g hg with ⟨b, hb, hbg, hbpp⟩ | hnone
        · exact .inl ⟨b, hb, hbg, (hmem _).mpr (.inr hbpp)⟩
        · refine .inr fun c hc => ?_
          rcases (hcell c).mp hc with rfl | hc
          · rcases htake with htake | htake
            · simp [htake]
            · rw [htake]
              exact fun heq => hgf (Option.some.inj heq).symm
          · exact hnone c hc
    · have hb' : b ∈ s.stack := hstack ▸ List.mem_cons_of_mem f hb
      rw [clear_iff h.linked]
      rcases hcov b.handler (h.dead b hb') with ⟨b', hmem', hsame, hpp'⟩ | hnone
      · obtain rfl := h.frame_unique hmem' hb' hsame
        rw [hbp] at hpp'
        exact absurd hpp' hpout
      · intro c hc
        rcases (hcell c).mp hc with rfl | hc
        exacts [hother b hb, hnone c hc]
    · rcases hcov.1 g hg with ⟨b, hb, rfl, hbpp⟩ | hnone
      · rcases (hmem _).mp hbpp with hbp | hbpp
        · rw [hstack] at hb
          rcases List.mem_cons.mp hb with rfl | hb
          · exact absurd (hbp ▸ hfpp) hpout
          · have hclear' := (clear_iff h.linked).mp (hcov.2 b hb hbp)
            exact .inr fun c hc => hclear' c ((hcell c).mpr (.inr hc))
        · exact .inl ⟨b, hb, rfl, hbpp⟩
      · exact .inr fun c hc => hnone c ((hcell c).mpr (.inr hc))

/-! ## Runs -/

section Runs

variable [DecidableEq η]

omit [DecidableEq η] in
/-- A round that takes no cell out is harmless. -/
theorem harmless_of_not_takes {a : Action η} (h : ∀ p, ¬Takes s p) : Harmless s a :=
  fun _ p htakes => absurd htakes (h p)

omit [DecidableEq η] in
theorem not_takes_of_client (h : s.control = .client) (p : ℕ) : ¬Takes s p :=
  fun htakes => by simpa [h] using htakes.1

/-- **What a step keeps.**  The dead handlers stay covered if and only if the step is
harmless. -/
theorem WellFormed.step (h : WellFormed s cells) {a : Action η} (hstep : Event.step s a = some s') :
    ∃ cells', WellFormed s' cells' ∧ (Covered s' cells' ↔ Covered s cells ∧ Harmless s a) := by
  cases a with
  | die handler =>
      rw [Event.step] at hstep
      split_ifs at hstep with hdie
      obtain ⟨hcontrol, hnew⟩ := hdie
      cases hstep
      refine ⟨cells, ⟨h.linked, fun f hf => ?_, ?_, fun f hf => ?_⟩, ?_⟩
      · rcases List.mem_cons.mp hf with rfl | hf
        · exact .inl ⟨[], cells, rfl, rfl, by simp⟩
        · exact h.frames f hf
      · refine List.nodup_cons.mpr ⟨fun hmem => ?_, h.nodup⟩
        obtain ⟨f, hf, rfl⟩ := List.mem_map.mp hmem
        exact hnew (h.dead f hf)
      · rcases List.mem_cons.mp hf with rfl | hf
        exacts [List.mem_cons_self, List.mem_cons_of_mem _ (h.dead f hf)]
      · rw [and_iff_left (harmless_of_not_takes (not_takes_of_client hcontrol))]
        refine ⟨fun hcov g hg => ?_, fun hcov g hg => ?_⟩
        · rcases hcov g (List.mem_cons_of_mem _ hg) with ⟨f, hf, hfg, hpp⟩ | hclear
          · rcases List.mem_cons.mp hf with rfl | hf
            · obtain rfl : handler = g := hfg
              exact absurd hg hnew
            · exact .inl ⟨f, hf, hfg, hpp⟩
          · exact .inr hclear
        · rcases List.mem_cons.mp hg with rfl | hg
          · exact .inl ⟨⟨g, s.queue.head⟩, List.mem_cons_self, rfl, List.mem_cons_self⟩
          · refine (hcov g hg).imp_left fun ⟨f, hf, hfg⟩ => ?_
            exact ⟨f, List.mem_cons_of_mem _ hf, hfg⟩
  | iterate =>
      obtain ⟨f, below, hcontrol, hstack, hcase⟩ := iterate_cases hstep
      have htakes : ∀ p, Takes s p ↔ s.queue.cdr f.pp = some p ∧
          (evHndl s.queue p = none ∨ evHndl s.queue p = some f.handler) := by
        intro p
        refine ⟨?_, fun hp => ⟨hcontrol, f, below, hstack, hp⟩⟩
        rintro ⟨-, f', below', hstack', hp⟩
        obtain ⟨rfl, rfl⟩ := List.cons.inj (hstack.symm.trans hstack')
        exact hp
      rcases hcase with ⟨hnext, rfl⟩ | ⟨p, hnext, ⟨htake, rfl⟩ | ⟨hkeep, rfl⟩⟩
      · obtain ⟨hwf, hcov⟩ := h.finished hstack hnext
        refine ⟨cells, hwf, hcov.trans (and_iff_left (harmless_of_not_takes fun p hp => ?_)).symm⟩
        exact absurd (hnext.symm.trans ((htakes p).mp hp).1) (by simp)
      · obtain ⟨cells', hwf, hcov⟩ := h.removed hstack hnext htake
        refine ⟨cells', hwf, hcov.trans (and_congr_right' ⟨fun hbelow _ b hb => ?_, fun hharm => ?_⟩)⟩
        · obtain rfl := Option.some.inj (((htakes b).mp hb).1.symm.trans hnext)
          rw [hstack]
          exact hbelow
        · have := hharm rfl p ((htakes p).mpr ⟨hnext, htake⟩)
          rwa [hstack] at this
      · obtain ⟨hwf, hcov⟩ := h.passed hstack hnext hkeep
        refine ⟨cells, hwf, hcov.trans (and_iff_left (harmless_of_not_takes fun b hb => ?_)).symm⟩
        obtain ⟨hb, htake⟩ := (htakes b).mp hb
        obtain rfl := Option.some.inj (hb.symm.trans hnext)
        exact hkeep htake
  | ret =>
      rw [Event.step] at hstep
      split_ifs at hstep with hret
      cases hstep
      refine ⟨cells, ⟨h.linked, h.frames, h.nodup, h.dead⟩, ?_⟩
      exact (and_iff_left (harmless_of_not_takes (not_takes_of_client hret.1))).symm

/-- The loops never end in an error: the innermost one can always go on. -/
theorem iterate_possible {f : Frame η} {below : List (Frame η)} (hcontrol : s.control = .loop)
    (hstack : s.stack = f :: below) : ∃ s', Event.step s .iterate = some s' := by
  simp only [Event.step, iterate, hcontrol, hstack, finalizeRound]
  cases hnext : s.queue.cdr f.pp with
  | none => exact ⟨_, rfl⟩
  | some p =>
      by_cases htake : evHndl s.queue p = none ∨ evHndl s.queue p = some f.handler
      · simp only [if_pos htake, evRemove_eq hnext]
        exact ⟨_, rfl⟩
      · simp only [if_neg htake]
        exact ⟨_, rfl⟩

/-- No event belongs to a dead handler, and `tail` is the last cell that is reached from
`head`. -/
def Survived (s : State η δ ε) : Prop :=
  (∀ handler ∈ s.dead, Clear s.queue handler) ∧
    ∃ cells, Chain s.queue.cdr s.queue.head cells ∧ s.queue.tail = last s.queue.head cells

/-- **When no event outlives its handler.**  Any queue, and any deaths, one within the
other.  When the outermost `ev_finalize` returns, no event of a dead handler is in the
queue and `tail` is the last cell if and only if no loop was cut that had something left
to do: whenever a loop took the cell out that a loop further out had in `pp`, no event
of the handler of the latter was left. -/
theorem no_event_outlives {q : Queue η δ ε} (hlinked : Linked q cells) {actions : List (Action η)}
    (hrun : run Event.step (quiet q) actions = some s) (hdone : s.stack = []) :
    Survived s ↔ Along Event.step Harmless (quiet q) actions := by
  have hstart : WellFormed (quiet q) cells := ⟨hlinked, by simp [quiet], List.nodup_nil, by simp [quiet]⟩
  have hstep : ∀ (s : State η δ ε) (a : Action η) (s' : State η δ ε),
      (∃ cells, WellFormed s cells) → Event.step s a = some s' →
      (∃ cells, WellFormed s' cells) ∧
        ((∀ cells, WellFormed s' cells → Covered s' cells) ↔
          (∀ cells, WellFormed s cells → Covered s cells) ∧ Harmless s a) := by
    rintro s a s' ⟨cells, hwf⟩ hstep
    obtain ⟨cells', hwf', hcov⟩ := hwf.step hstep
    have hthe : ∀ {s : State η δ ε} {cells : List ℕ}, WellFormed s cells →
        ((∀ cells, WellFormed s cells → Covered s cells) ↔ Covered s cells) := by
      intro s cells hwf
      refine ⟨fun hall => hall cells hwf, fun hcov cells' hwf' => ?_⟩
      rwa [hwf'.linked.chain.unique hwf.linked.chain]
    rw [hthe hwf', hthe hwf]
    exact ⟨⟨cells', hwf'⟩, hcov⟩
  obtain ⟨⟨cells', hwf⟩, hiff⟩ := iff_of_along hstep ⟨cells, hstart⟩ hrun
  have hfirst : ∀ cells, WellFormed (quiet q) cells → Covered (quiet q) cells :=
    fun _ _ g hg => absurd hg (List.not_mem_nil)
  rw [and_iff_right hfirst] at hiff
  rw [← hiff]
  refine ⟨fun hsurv cells hwf g hg => .inr ?_, fun hcov => ⟨fun g hg => ?_, ?_⟩⟩
  · exact (clear_iff hwf.linked).mp (hsurv.1 g hg)
  · rw [clear_iff hwf.linked]
    refine (hcov cells' hwf g hg).resolve_left ?_
    rintro ⟨f, hf, -⟩
    rw [hdone] at hf
    exact absurd hf List.not_mem_nil
  · exact ⟨cells', hwf.linked.chain, hwf.linked.tail⟩

end Runs

/-! ## A cut loop -/

/-- An event of the handler `false`, then two of `true`. -/
def threeEvents : Queue Bool ℕ ℕ :=
  let q := evAdd (init Bool ℕ ℕ) (some false) (some 0) none 0
  let q := evAdd q (some true) (some 1) none 0
  evAdd q (some true) (some 2) none 0

theorem linked_threeEvents : Linked threeEvents [1, 2, 3] where
  chain := ⟨rfl, rfl, rfl, rfl⟩
  tail := rfl
  nodup := by decide
  used := by decide
  unused := by simp [threeEvents, evAdd, cons, init]
  free_nodup := List.nodup_nil

theorem no_event_outlives_true :
    ∃ s, run step (quiet threeEvents) [.die true, .iterate, .iterate, .ret, .iterate, .ret, .iterate] =
      some s ∧ s.stack = [] ∧ Survived s := by
  have hharm : ∀ {s : State Bool ℕ ℕ} {a : Action Bool}, s.stack.tail = [] → Harmless s a := by
    intro s a htail _ p _ f hf
    rw [htail] at hf
    exact absurd hf List.not_mem_nil
  obtain ⟨s, hrun, hdone⟩ : ∃ s, run step (quiet threeEvents) [.die true, .iterate, .iterate, .ret,
      .iterate, .ret, .iterate] = some s ∧ s.stack = [] := ⟨_, rfl, rfl⟩
  refine ⟨s, hrun, hdone, (no_event_outlives linked_threeEvents hrun hdone).mpr ?_⟩
  exact ⟨hharm rfl, hharm rfl, hharm rfl, hharm rfl, hharm rfl, hharm rfl, hharm rfl, trivial⟩

/-- The handler `true` dies.  Its loop passes the first cell and takes the second one
out, which held the last reference to `false`: the inner loop takes the first cell out.
The third cell stays, an event of `true`. -/
theorem outlived :
    ∃ s, run step (quiet threeEvents) [.die true, .iterate, .iterate, .die false, .iterate, .ret,
      .iterate, .iterate, .ret, .iterate] = some s ∧ s.stack = [] ∧ ¬Survived s := by
  refine ⟨_, rfl, rfl, fun hsurv => ?_⟩
  have hclear := hsurv.1 true (List.mem_cons_of_mem _ List.mem_cons_self) [3] ⟨rfl, rfl⟩ 3 (by simp)
  exact hclear rfl

end Lush.Event
