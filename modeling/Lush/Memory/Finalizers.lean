import Lush.Basic
import Lush.Library.Runs

/-!
# Finalizers

The finalizers are kept in a hash table, by target.  `run_finalizers` first moves
the entries of its target to a list of its own, `todo`, and then calls them one
after the other; a finalizer function may call `add_finalizer`,
`del_finalizers` and `run_finalizers` again.  So the program is a transition
system: a stack of activations of `run_finalizers`, each with its `todo` list,
and a client, which is the finalizer function called last, or the program
outside when there is none.

`del_finalizers` looks at the hash table only.  It keeps its promise along every
run in which it is not called for an argument that waits on a `todo` list
(`finalizers_safe`), and breaks it as soon as it is (`exists_unsafe_of_pending`).
-/

namespace Lush.Memory

open Runs

variable {ν φ α : Type}

/-! ## The hash table -/

/-- `HASHTABLESIZE`. -/
def hashTableSize : ℕ := 1024

instance : NeZero hashTableSize := ⟨by decide⟩

/-- `struct s_finalizer`. -/
structure Finalizer (ν φ α : Type) where
  target : ν
  func : φ
  arg : α
deriving DecidableEq

/-- `finalizers`, bucket by bucket. -/
abbrev Buckets (ν φ α : Type) := Fin hashTableSize → List (Finalizer ν φ α)

/-- The loop of `run_finalizers` that collects the entries of its target: what
stays in the bucket, and the `todo` list. -/
def collect [DecidableEq ν] (q : ν) : List (Finalizer ν φ α) → List (Finalizer ν φ α) →
    List (Finalizer ν φ α) × List (Finalizer ν φ α)
  | [], todo => ([], todo)
  | f :: bucket, todo =>
      if f.target ≠ q then
        let (kept, todo) := collect q bucket todo
        (f :: kept, todo)
      else
        collect q bucket (f :: todo)

theorem collect_subset [DecidableEq ν] (q : ν) (bucket todo : List (Finalizer ν φ α)) :
    (∀ f ∈ (collect q bucket todo).1, f ∈ bucket) ∧
      ∀ f ∈ (collect q bucket todo).2, f ∈ bucket ∨ f ∈ todo := by
  induction bucket generalizing todo with
  | nil => simp [collect]
  | cons f bucket ih =>
      by_cases hf : f.target = q
      · rw [collect, if_neg (not_not.mpr hf)]
        obtain ⟨h1, h2⟩ := ih (f :: todo)
        refine ⟨fun g hg => List.mem_cons_of_mem _ (h1 g hg), fun g hg => ?_⟩
        rcases h2 g hg with hg | hg
        · exact Or.inl (List.mem_cons_of_mem _ hg)
        · rcases List.mem_cons.mp hg with rfl | hg
          · exact Or.inl List.mem_cons_self
          · exact Or.inr hg
      · rw [collect, if_pos hf]
        obtain ⟨h1, h2⟩ := ih todo
        refine ⟨fun g hg => ?_, fun g hg => (h2 g hg).imp_left (List.mem_cons_of_mem _)⟩
        rcases List.mem_cons.mp hg with rfl | hg
        · exact List.mem_cons_self
        · exact List.mem_cons_of_mem _ (h1 g hg)

/-! ## The transition system -/

/-- An activation of `run_finalizers`: its target, and what it has still to
call. -/
structure Frame (ν φ α : Type) where
  target : ν
  todo : List (Finalizer ν φ α)
deriving DecidableEq

/-- Who runs: the client, or the loop of the last activation of
`run_finalizers`. -/
inductive Control
  | client
  | loop
deriving DecidableEq

/-- What a history is about. -/
inductive Event (ν φ α : Type)
  | added (arg : α)
  | deleted (arg : α)
  | called (f : Finalizer ν φ α)
deriving DecidableEq

/-- The hash table, the flags `C_FINALIZER`, the activations of
`run_finalizers`, and the history, last event first. -/
structure State (ν φ α : Type) where
  finalizers : Buckets ν φ α
  flag : ν → Bool
  stack : List (Frame ν φ α)
  control : Control
  log : List (Event ν φ α)

/-- No finalizer, no activation. -/
def initial (ν φ α : Type) : State ν φ α :=
  ⟨fun _ => [], fun _ => false, [], .client, []⟩

section Functions

variable [DecidableEq ν] [DecidableEq φ] [DecidableEq α]

/-- `add_finalizer`. -/
def addFinalizer (hash : ν → Fin hashTableSize) (s : State ν φ α) (q : Option ν) (func : φ)
    (arg : α) : State ν φ α :=
  match q with
  | none => s
  | some q =>
      let s := { s with log := .added arg :: s.log }
      if s.flag q ∧ ⟨q, func, arg⟩ ∈ s.finalizers (hash q) then s
      else
        { s with
          finalizers := Function.update s.finalizers (hash q)
            (⟨q, func, arg⟩ :: s.finalizers (hash q))
          flag := Function.update s.flag q true }

/-- `del_finalizers`. -/
def delFinalizers (s : State ν φ α) (arg : α) : State ν φ α :=
  { s with
    finalizers := fun h => (s.finalizers h).filter fun f => f.arg ≠ arg
    log := .deleted arg :: s.log }

/-- `run_finalizers`, up to its second loop. -/
def runFinalizers (hash : ν → Fin hashTableSize) (s : State ν φ α) (q : ν) : State ν φ α :=
  let (kept, todo) := collect q (s.finalizers (hash q)) []
  { s with
    finalizers := Function.update s.finalizers (hash q) kept
    flag := Function.update s.flag q false
    stack := ⟨q, todo⟩ :: s.stack
    control := .loop }

/-- The second loop of `run_finalizers` calls the next finalizer. -/
def invokeNext (s : State ν φ α) : Option (State ν φ α) :=
  match s.control, s.stack with
  | .loop, ⟨q, f :: todo⟩ :: frames =>
      some { s with stack := ⟨q, todo⟩ :: frames, control := .client, log := .called f :: s.log }
  | _, _ => none

/-- The second loop of `run_finalizers` ends. -/
def finishLoop (s : State ν φ α) : Option (State ν φ α) :=
  match s.control, s.stack with
  | .loop, ⟨_, []⟩ :: frames => some { s with stack := frames, control := .client }
  | _, _ => none

/-- What the program can do: the client calls a function, or returns; the loop
calls the next finalizer, or ends. -/
inductive Action (ν φ α : Type)
  | add (q : Option ν) (func : φ) (arg : α)
  | del (arg : α)
  | run (q : ν)
  | ret
  | invoke
  | finish

/-- One step of the program. -/
def step (hash : ν → Fin hashTableSize) (s : State ν φ α) :
    Action ν φ α → Option (State ν φ α)
  | .add q func arg => if s.control = .client then some (addFinalizer hash s q func arg) else none
  | .del arg => if s.control = .client then some (delFinalizers s arg) else none
  | .run q => if s.control = .client then some (runFinalizers hash s q) else none
  | .ret =>
      if s.control = .client ∧ s.stack ≠ [] then some { s with control := .loop } else none
  | .invoke => invokeNext s
  | .finish => finishLoop s

end Functions

theorem invokeNext_eq_some {s s' : State ν φ α} : invokeNext s = some s' ↔
    ∃ q f todo frames, s.control = .loop ∧ s.stack = ⟨q, f :: todo⟩ :: frames ∧
      s' = { s with
        stack := ⟨q, todo⟩ :: frames, control := .client, log := .called f :: s.log } := by
  refine ⟨fun h => ?_, ?_⟩
  · unfold invokeNext at h
    split at h
    · rename_i q f todo frames hcontrol hstack
      exact ⟨q, f, todo, frames, hcontrol, hstack, (Option.some.inj h).symm⟩
    · cases h
  · rintro ⟨q, f, todo, frames, hcontrol, hstack, rfl⟩
    simp [invokeNext, hcontrol, hstack]

theorem finishLoop_eq_some {s s' : State ν φ α} : finishLoop s = some s' ↔
    ∃ q frames, s.control = .loop ∧ s.stack = ⟨q, []⟩ :: frames ∧
      s' = { s with stack := frames, control := .client } := by
  refine ⟨fun h => ?_, ?_⟩
  · unfold finishLoop at h
    split at h
    · rename_i q frames hcontrol hstack
      exact ⟨q, frames, hcontrol, hstack, (Option.some.inj h).symm⟩
    · cases h
  · rintro ⟨q, frames, hcontrol, hstack, rfl⟩
    simp [finishLoop, hcontrol, hstack]

/-! ## What is promised -/

/-- `del_finalizers` has returned for this argument, which was not added again
since. -/
def deleted [DecidableEq α] (arg : α) : List (Event ν φ α) → Bool
  | [] => false
  | .added a :: log => if a = arg then false else deleted arg log
  | .deleted a :: log => if a = arg then true else deleted arg log
  | .called _ :: log => deleted arg log

/-- No finalizer function was called with a deleted argument. -/
def Safe [DecidableEq α] : List (Event ν φ α) → Prop
  | [] => True
  | .called f :: log => deleted f.arg log = false ∧ Safe log
  | .added _ :: log => Safe log
  | .deleted _ :: log => Safe log

/-- The argument waits on a `todo` list. -/
def Pending (s : State ν φ α) (arg : α) : Prop :=
  ∃ frame ∈ s.stack, ∃ f ∈ frame.todo, f.arg = arg

/-- `del_finalizers` is not called for an argument that waits on a `todo`
list. -/
def DelNotPending (s : State ν φ α) : Action ν φ α → Prop
  | .del arg => ¬Pending s arg
  | _ => True

section Safety

variable [DecidableEq α]

/-- Neither the hash table nor a `todo` list holds a deleted argument. -/
structure Current (s : State ν φ α) : Prop where
  table : ∀ h, ∀ f ∈ s.finalizers h, deleted f.arg s.log = false
  todo : ∀ frame ∈ s.stack, ∀ f ∈ frame.todo, deleted f.arg s.log = false
  safe : Safe s.log

theorem current_initial : Current (initial ν φ α) :=
  ⟨fun _ _ hf => by simp [initial] at hf, fun _ hframe => by simp [initial] at hframe, trivial⟩

theorem deleted_added {arg a : α} {log : List (Event ν φ α)} (h : deleted arg log = false) :
    deleted arg (.added a :: log) = false := by
  by_cases ha : a = arg <;> simp [deleted, ha, h]

theorem Current.add [DecidableEq ν] [DecidableEq φ] {hash : ν → Fin hashTableSize} {s : State ν φ α} (h : Current s)
    (q : Option ν) (func : φ) (arg : α) : Current (addFinalizer hash s q func arg) := by
  cases q with
  | none => exact h
  | some q =>
      unfold addFinalizer
      simp only
      split
      · exact ⟨fun i f hf => deleted_added (h.table i f hf),
          fun frame hframe f hf => deleted_added (h.todo frame hframe f hf), h.safe⟩
      · refine ⟨fun i f hf => ?_,
          fun frame hframe f hf => deleted_added (h.todo frame hframe f hf), h.safe⟩
        simp only [Function.update_apply] at hf
        split at hf
        · rcases List.mem_cons.mp hf with rfl | hf
          · simp [deleted]
          · exact deleted_added (h.table _ f hf)
        · exact deleted_added (h.table i f hf)

theorem Current.del {s : State ν φ α} (h : Current s) {arg : α} (hpending : ¬Pending s arg) :
    Current (delFinalizers s arg) := by
  have hkeep : ∀ {f : Finalizer ν φ α}, f.arg ≠ arg → deleted f.arg s.log = false →
      deleted f.arg (.deleted arg :: s.log) = false := fun hne hf => by
    simp [deleted, Ne.symm hne, hf]
  refine ⟨fun i f hf => ?_, fun frame hframe f hf => ?_, h.safe⟩
  · obtain ⟨hmem, hne⟩ := List.mem_filter.mp hf
    exact hkeep (by simpa using hne) (h.table i f hmem)
  · exact hkeep (fun hf' => hpending ⟨frame, hframe, f, hf, hf'⟩) (h.todo frame hframe f hf)

theorem Current.run [DecidableEq ν] {hash : ν → Fin hashTableSize} {s : State ν φ α} (h : Current s) (q : ν) :
    Current (runFinalizers hash s q) := by
  obtain ⟨hkept, htodo⟩ := collect_subset q (s.finalizers (hash q)) []
  refine ⟨fun i f hf => ?_, fun frame hframe f hf => ?_, h.safe⟩
  · simp only [runFinalizers, Function.update_apply] at hf
    split at hf
    · exact h.table _ f (hkept f hf)
    · exact h.table i f hf
  · rcases List.mem_cons.mp hframe with rfl | hframe
    · exact h.table (hash q) f ((htodo f hf).resolve_right (by simp))
    · exact h.todo frame hframe f hf

theorem Current.invoke {s s' : State ν φ α} (h : Current s) (hinvoke : invokeNext s = some s') :
    Current s' := by
  obtain ⟨q, f, todo, frames, -, hstack, rfl⟩ := invokeNext_eq_some.mp hinvoke
  have htodo := h.todo ⟨q, f :: todo⟩ (by simp [hstack])
  refine ⟨h.table, fun frame hframe g hg => ?_, htodo f (by simp), h.safe⟩
  rcases List.mem_cons.mp hframe with rfl | hframe
  · exact htodo g (List.mem_cons_of_mem _ hg)
  · exact h.todo frame (by simp [hstack, hframe]) g hg

theorem Current.finish {s s' : State ν φ α} (h : Current s) (hfinish : finishLoop s = some s') :
    Current s' := by
  obtain ⟨q, frames, -, hstack, rfl⟩ := finishLoop_eq_some.mp hfinish
  exact ⟨h.table, fun frame hframe => h.todo frame (by simp [hstack, hframe]), h.safe⟩

variable [DecidableEq ν] [DecidableEq φ]

/-- **One step** keeps the lists current, unless it deletes an argument that
waits. -/
theorem Current.step {hash : ν → Fin hashTableSize} {s s' : State ν φ α} {a : Action ν φ α}
    (h : Current s) (hok : DelNotPending s a) (hstep : Memory.step hash s a = some s') :
    Current s' := by
  cases a with
  | add q func arg =>
      obtain ⟨-, heq⟩ := Option.ite_none_right_eq_some.mp hstep
      exact Option.some.inj heq ▸ h.add q func arg
  | del arg =>
      obtain ⟨-, heq⟩ := Option.ite_none_right_eq_some.mp hstep
      exact Option.some.inj heq ▸ h.del hok
  | run q =>
      obtain ⟨-, heq⟩ := Option.ite_none_right_eq_some.mp hstep
      exact Option.some.inj heq ▸ h.run q
  | ret =>
      obtain ⟨-, heq⟩ := Option.ite_none_right_eq_some.mp hstep
      exact Option.some.inj heq ▸ ⟨h.table, h.todo, h.safe⟩
  | invoke => exact h.invoke hstep
  | finish => exact h.finish hstep

/-- **Finalizer safety.**  In every run in which `del_finalizers` is not called
for an argument that waits on a `todo` list, no finalizer function is called
with an argument that was deleted and not added again. -/
theorem finalizers_safe (hash : ν → Fin hashTableSize) {actions : List (Action ν φ α)}
    {s : State ν φ α} (hrun : run (step hash) (initial ν φ α) actions = some s)
    (hdel : Along (step hash) DelNotPending (initial ν φ α) actions) : Safe s.log :=
  (invariant_of_along (fun _ _ _ h hok hstep => h.step hok hstep) current_initial hdel hrun).safe

/-- A finalizer that deletes nothing, and an argument deleted when nothing
waits any more. -/
theorem finalizers_safe_nested :
    Along (step fun _ : Unit => 0) DelNotPending (initial Unit Unit ℕ)
        [.add (some ()) () 0, .add (some ()) () 1, .run (), .invoke, .ret, .invoke, .del 0] ∧
      Safe [.deleted 0, .called ⟨(), (), 1⟩, .called ⟨(), (), 0⟩, .added 1,
        (.added 0 : Event Unit Unit ℕ)] := by
  have hdel : Along (step fun _ : Unit => 0) DelNotPending (initial Unit Unit ℕ)
      [.add (some ()) () 0, .add (some ()) () 1, .run (), .invoke, .ret, .invoke, .del 0] := by
    refine ⟨trivial, trivial, trivial, trivial, trivial, trivial, ?_, trivial⟩
    rintro ⟨frame, hframe, f, hf, -⟩
    obtain rfl := List.mem_singleton.mp hframe
    cases hf
  exact ⟨hdel, finalizers_safe (fun _ => 0) rfl hdel⟩

/-! ## The promise is broken -/

/-- The steps of `run_finalizers` itself, and the returns of finalizers. -/
def Action.IsProgress : Action ν φ α → Prop
  | .ret => True
  | .invoke => True
  | .finish => True
  | _ => False

/-- What is left to do for the activations of `run_finalizers`. -/
def workLeft (s : State ν φ α) : ℕ :=
  (s.stack.map fun frame => 2 * frame.todo.length + 2).sum + if s.control = .client then 1 else 0

omit [DecidableEq α] [DecidableEq ν] [DecidableEq φ] in
theorem workLeft_eq (s : State ν φ α) {frame : Frame ν φ α} {frames : List (Frame ν φ α)}
    (hstack : s.stack = frame :: frames) :
    workLeft s = 2 * frame.todo.length + 2 +
      (frames.map fun frame => 2 * frame.todo.length + 2).sum +
        if s.control = .client then 1 else 0 := by
  rw [workLeft, hstack, List.map_cons, List.sum_cons]

/-- Whatever waits on a `todo` list is called when the finalizers return. -/
theorem exists_called (hash : ν → Fin hashTableSize) (f : Finalizer ν φ α) :
    ∀ (n : ℕ) (s : State ν φ α), workLeft s ≤ n → (∃ frame ∈ s.stack, f ∈ frame.todo) →
      ∃ actions s' calls, (∀ a ∈ actions, a.IsProgress) ∧
        run (step hash) s actions = some s' ∧ s'.log = List.map .called calls ++ s.log ∧
        f ∈ calls := by
  intro n
  induction n with
  | zero =>
      rintro s hwork ⟨frame, hframe, -⟩
      obtain ⟨first, frames, hstack⟩ := List.exists_cons_of_ne_nil (List.ne_nil_of_mem hframe)
      rw [workLeft_eq s hstack] at hwork
      omega
  | succ n ih =>
      rintro s hwork ⟨frame, hframe, hf⟩
      obtain ⟨⟨q, todo⟩, frames, hstack⟩ :=
        List.exists_cons_of_ne_nil (List.ne_nil_of_mem hframe)
      rw [workLeft_eq s hstack] at hwork
      -- a first step, and then the rest
      have hcons : ∀ a s1 calls, a.IsProgress → step hash s a = some s1 → workLeft s1 ≤ n →
          s1.log = List.map Event.called calls ++ s.log →
          (f ∈ calls ∨ ∃ frame ∈ s1.stack, f ∈ frame.todo) →
          ∃ actions s' calls, (∀ a ∈ actions, a.IsProgress) ∧
            run (step hash) s actions = some s' ∧ s'.log = List.map .called calls ++ s.log ∧
            f ∈ calls := by
        rintro a s1 calls ha hstep hwork1 hlog (hcalled | hwaits)
        · exact ⟨[a], s1, calls, by simpa using ha, run_cons.mpr ⟨s1, hstep, rfl⟩, hlog, hcalled⟩
        · obtain ⟨actions, s', calls', hactions, hrun, hlog', hmem⟩ := ih s1 hwork1 hwaits
          refine ⟨a :: actions, s', calls' ++ calls, fun b hb => ?_,
            run_cons.mpr ⟨s1, hstep, hrun⟩, by simp [hlog', hlog], by simp [hmem]⟩
          rcases List.mem_cons.mp hb with rfl | hb
          exacts [ha, hactions b hb]
      cases hcontrol : s.control with
      | client =>
          refine hcons .ret { s with control := .loop } [] trivial
            (if_pos ⟨hcontrol, by simp [hstack]⟩) ?_ rfl (Or.inr ⟨frame, hframe, hf⟩)
          rw [workLeft_eq { s with control := .loop } hstack]
          simp [hcontrol] at hwork ⊢
          omega
      | loop =>
          cases todo with
          | nil =>
              refine hcons .finish { s with stack := frames, control := .client } [] trivial
                (finishLoop_eq_some.mpr ⟨q, frames, hcontrol, hstack, rfl⟩) ?_ rfl (Or.inr ?_)
              · simp [hcontrol, workLeft] at hwork ⊢
                omega
              · refine ⟨frame, ?_, hf⟩
                rw [hstack] at hframe
                refine (List.mem_cons.mp hframe).resolve_left ?_
                rintro rfl
                simp at hf
          | cons g todo =>
              refine hcons .invoke _ [g] trivial
                (invokeNext_eq_some.mpr ⟨q, g, todo, frames, hcontrol, hstack, rfl⟩) ?_ rfl ?_
              · rw [workLeft_eq _ rfl]
                simp [hcontrol] at hwork ⊢
                omega
              · rw [hstack] at hframe
                rcases List.mem_cons.mp hframe with rfl | hframe
                · rcases List.mem_cons.mp hf with rfl | hf
                  · exact Or.inl (by simp)
                  · exact Or.inr ⟨⟨q, todo⟩, by simp, hf⟩
                · exact Or.inr ⟨frame, by simp [hframe], hf⟩

omit [DecidableEq ν] [DecidableEq φ] in
theorem deleted_called (arg : α) (calls : List (Finalizer ν φ α)) (log : List (Event ν φ α)) :
    deleted arg (calls.map .called ++ log) = deleted arg log := by
  induction calls with
  | nil => rfl
  | cons f calls ih => simpa [deleted] using ih

omit [DecidableEq ν] [DecidableEq φ] in
theorem not_safe_of_called {f : Finalizer ν φ α} {calls : List (Finalizer ν φ α)}
    {log : List (Event ν φ α)} (hf : f ∈ calls) (hdeleted : deleted f.arg log = true) :
    ¬Safe (calls.map .called ++ log) := by
  induction calls with
  | nil => simp at hf
  | cons g calls ih =>
      rintro ⟨hg, hsafe⟩
      rcases List.mem_cons.mp hf with rfl | hf
      · change deleted f.arg (calls.map .called ++ log) = false at hg
        rw [deleted_called, hdeleted] at hg
        cases hg
      · exact ih hf hsafe

/-- **Deleting an argument that waits breaks the promise**: it is called when
the finalizers return. -/
theorem exists_unsafe_of_pending (hash : ν → Fin hashTableSize) {s : State ν φ α} {arg : α}
    (hcontrol : s.control = .client) (hpending : Pending s arg) :
    ∃ actions s', (∀ a ∈ actions, a.IsProgress) ∧
      run (step hash) s (.del arg :: actions) = some s' ∧ ¬Safe s'.log := by
  obtain ⟨frame, hframe, f, hf, rfl⟩ := hpending
  obtain ⟨actions, s', calls, hactions, hrun, hlog, hcalled⟩ :=
    exists_called hash f _ (delFinalizers s f.arg) le_rfl ⟨frame, hframe, hf⟩
  refine ⟨actions, s', hactions, run_cons.mpr ⟨_, if_pos hcontrol, hrun⟩, ?_⟩
  rw [hlog]
  exact not_safe_of_called hcalled (by simp [delFinalizers, deleted])

/-- Two finalizers on one target: while the first one runs, `del_finalizers` is
called for the argument of the second one, which is called afterwards. -/
theorem finalizers_unsafe : ∃ s : State Unit Unit ℕ,
    run (step fun _ => 0) (initial Unit Unit ℕ)
      [.add (some ()) () 0, .add (some ()) () 1, .run (), .invoke, .del 1, .ret, .invoke] =
        some s ∧ ¬Safe s.log :=
  ⟨_, rfl, fun h => absurd h.1 (by decide)⟩

end Safety

end Lush.Memory
