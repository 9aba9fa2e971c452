import Lush.Basic
import Lush.Library.Density

/-!
# Clustering by density

The function `mapper_dbscan` of `mapper-c.c`.  The distances are the lower triangle of a
matrix, row after row.  The points are scanned in order; a point with enough neighbors
that no cluster has reached is the seed of a new cluster, which is expanded from a stack
of points.
-/

namespace Lush.Mapper

open Density

variable {D : Type} [LinearOrder D] [Zero D]

/-- `DM_IDX(i, j)`. -/
def dmIdx (i j : ℕ) : ℕ := i * (i - 1) / 2 + j

/-- `_dm_get(dm, i, j)`. -/
def dmGet (dm : ℕ → D) (i j : ℕ) : D :=
  if i = j then 0 else if i < j then dm (dmIdx j i) else dm (dmIdx i j)

omit [LinearOrder D] in
theorem dmGet_comm (dm : ℕ → D) (i j : ℕ) : dmGet dm i j = dmGet dm j i := by
  unfold dmGet
  rcases Nat.lt_trichotomy i j with h | h | h
  · rw [if_neg h.ne, if_pos h, if_neg h.ne', if_neg (by omega)]
  · rw [if_pos h, if_pos h.symm]
  · rw [if_neg h.ne', if_neg (by omega), if_neg h.ne, if_pos h]

/-- The points at most `eps` away from `i`, in order. -/
def neighbors (dm : ℕ → D) (nrows : ℕ) (eps : D) (i : ℕ) : List ℕ :=
  (List.range nrows).filter fun j => dmGet dm i j ≤ eps

/-- The stack and the points that were ever put on it. -/
structure Queue where
  stack : List ℕ
  queued : ℕ → Bool

/-- The points of a list are pushed, except those that are skipped or that are queued. -/
def enqueue (skip : ℕ → Bool) : List ℕ → Queue → Queue
  | [], w => w
  | j :: js, w =>
      if skip j || w.queued j then enqueue skip js w
      else enqueue skip js ⟨j :: w.stack, Function.update w.queued j true⟩

/-- The arrays of the function. -/
structure Marks where
  visited : ℕ → Bool
  labels : ℕ → ℤ

/-- What is done with a point `q` that is popped, while the cluster `cluster_id` is
expanded. -/
def popped (dm : ℕ → D) (nrows : ℕ) (eps : D) (minPts : ℕ) (clusterId : ℕ) (q : ℕ) (w : Queue)
    (m : Marks) : Queue × Marks :=
  let labels := if m.labels q = -1 then Function.update m.labels q clusterId else m.labels
  if m.visited q then (w, { m with labels := labels })
  else
    let visited := Function.update m.visited q true
    let m := ⟨visited, Function.update labels q clusterId⟩
    if minPts ≤ (neighbors dm nrows eps q).length then
      (enqueue visited (neighbors dm nrows eps q) w, m)
    else (w, m)

/-- The loop of an expansion, until the stack is empty. -/
def expand (dm : ℕ → D) (nrows : ℕ) (eps : D) (minPts : ℕ) (clusterId : ℕ) :
    ℕ → Queue → Marks → Option Marks
  | _, ⟨[], _⟩, m => some m
  | 0, ⟨_ :: _, _⟩, _ => none
  | fuel + 1, ⟨q :: stack, queued⟩, m =>
      let (w, m) := popped dm nrows eps minPts clusterId q ⟨stack, queued⟩ m
      expand dm nrows eps minPts clusterId fuel w m

/-- One point of the scan.  The marks of the stack are cleared after each cluster. -/
def scanPoint (dm : ℕ → D) (nrows : ℕ) (eps : D) (minPts : ℕ) (i : ℕ) (clusterId : ℕ)
    (m : Marks) : Option (ℕ × Marks) :=
  if m.visited i then some (clusterId, m)
  else
    let m := { m with visited := Function.update m.visited i true }
    if (neighbors dm nrows eps i).length < minPts then some (clusterId, m)
    else
      let m := { m with labels := Function.update m.labels i clusterId }
      let w := enqueue (fun j => j = i) (neighbors dm nrows eps i)
        ⟨[], Function.update (fun _ => false) i true⟩
      (expand dm nrows eps minPts clusterId nrows w m).map fun m => (clusterId + 1, m)

/-- The first `i` points of the scan. -/
def scan (dm : ℕ → D) (nrows : ℕ) (eps : D) (minPts : ℕ) : ℕ → Option (ℕ × Marks)
  | 0 => some (0, ⟨fun _ => false, fun _ => -1⟩)
  | i + 1 => (scan dm nrows eps minPts i).bind fun (clusterId, m) =>
      scanPoint dm nrows eps minPts i clusterId m

/-- `mapper_dbscan(dm, nrows, eps, min_pts, labels)`, with the number of clusters and the
labels. -/
def mapperDbscan (dm : ℕ → D) (nrows : ℕ) (eps : D) (minPts : ℕ) : Option (ℕ × (ℕ → ℤ)) :=
  (scan dm nrows eps minPts nrows).map fun (clusterId, m) => (clusterId, m.labels)

variable {dm : ℕ → D} {nrows : ℕ} {eps : D} {minPts clusterId : ℕ} {i q x : ℕ}

/-! ## Near points and core points -/

/-- Two points are within `eps` of each other. -/
def Near (dm : ℕ → D) (eps : D) (i j : ℕ) : Prop := dmGet dm i j ≤ eps

/-- A point with enough points, itself included, within `eps` of it. -/
def Core (dm : ℕ → D) (nrows : ℕ) (eps : D) (minPts : ℕ) (i : ℕ) : Prop :=
  i < nrows ∧ minPts ≤ (neighbors dm nrows eps i).length

theorem Near.symm (i j : ℕ) (h : Near dm eps i j) : Near dm eps j i := by
  unfold Near
  rwa [dmGet_comm]

theorem near_self (heps : 0 ≤ eps) (i : ℕ) : Near dm eps i i := by
  unfold Near dmGet
  rwa [if_pos rfl]

theorem mem_neighbors {j : ℕ} : j ∈ neighbors dm nrows eps i ↔ j < nrows ∧ Near dm eps i j := by
  simp [neighbors, Near]

/-! ## One step of an expansion -/

theorem enqueue_queued (skip : ℕ → Bool) (js : List ℕ) (w : Queue) :
    (enqueue skip js w).queued x = true ↔
      w.queued x = true ∨ x ∈ js ∧ skip x = false := by
  induction js generalizing w with
  | nil => simp [enqueue]
  | cons j js ih =>
      unfold enqueue
      split_ifs with hskip
      · rw [ih]
        by_cases hj : x = j
        · subst hj
          cases hs : skip x <;> simp_all
        · simp [hj]
      · rw [ih]
        by_cases hj : x = j
        · subst hj
          simp_all
        · simp [hj]

theorem mem_enqueue_stack (skip : ℕ → Bool) (js : List ℕ) (w : Queue) :
    x ∈ (enqueue skip js w).stack ↔
      x ∈ w.stack ∨ (x ∈ js ∧ skip x = false) ∧ w.queued x = false := by
  induction js generalizing w with
  | nil => simp [enqueue]
  | cons j js ih =>
      unfold enqueue
      split_ifs with hskip
      · rw [ih]
        by_cases hj : x = j
        · subst hj
          cases hs : skip x <;> simp_all
        · simp [hj]
      · rw [ih]
        by_cases hj : x = j
        · subst hj
          simp_all
        · simp [hj]

theorem enqueue_nodup (skip : ℕ → Bool) (js : List ℕ) {w : Queue} (hnodup : w.stack.Nodup)
    (hqueued : ∀ x ∈ w.stack, w.queued x = true) : (enqueue skip js w).stack.Nodup := by
  induction js generalizing w with
  | nil => exact hnodup
  | cons j js ih =>
      unfold enqueue
      split_ifs with hskip
      · exact ih hnodup hqueued
      · have hj : j ∉ w.stack := by
          intro hmem
          exact hskip (by simp [hqueued j hmem])
        refine ih (List.nodup_cons.mpr ⟨hj, hnodup⟩) fun x hx => ?_
        rcases List.mem_cons.mp hx with rfl | hx
        · exact Function.update_self ..
        · exact (Function.update_of_ne (ne_of_mem_of_not_mem hx hj) ..).trans (hqueued x hx)

/-- The points on the stack, and those that may still come. -/
def Queue.potential (nrows : ℕ) (w : Queue) : ℕ :=
  w.stack.length + {x ∈ Finset.range nrows | w.queued x = false}.card

theorem enqueue_potential (skip : ℕ → Bool) {js : List ℕ} (hjs : ∀ j ∈ js, j < nrows)
    (w : Queue) : (enqueue skip js w).potential nrows = w.potential nrows := by
  induction js generalizing w with
  | nil => rfl
  | cons j js ih =>
      have ih := ih fun j hj => hjs j (List.mem_cons_of_mem _ hj)
      unfold enqueue
      split_ifs with hskip
      · exact ih w
      · rw [ih]
        have hqueued : w.queued j = false := by simp_all
        have herase : {x ∈ Finset.range nrows | Function.update w.queued j true x = false} =
            {x ∈ Finset.range nrows | w.queued x = false}.erase j := by
          ext x
          by_cases hx : x = j <;> simp [hx]
        have hmem : j ∈ {x ∈ Finset.range nrows | w.queued x = false} := by
          simp [hqueued, hjs j List.mem_cons_self]
        have hcard := Finset.card_erase_add_one hmem
        unfold Queue.potential
        rw [herase, List.length_cons]
        omega

/-- The points that come on the stack when `q` is popped. -/
def Fresh (dm : ℕ → D) (nrows : ℕ) (eps : D) (minPts : ℕ) (q : ℕ) (m : Marks) (x : ℕ) : Prop :=
  (m.visited q = false ∧ minPts ≤ (neighbors dm nrows eps q).length) ∧
    x ∈ neighbors dm nrows eps q ∧ x ≠ q ∧ m.visited x = false

/-- What is done with a popped point. -/
structure Popped (dm : ℕ → D) (nrows : ℕ) (eps : D) (minPts clusterId q : ℕ) (w : Queue)
    (m : Marks) (w' : Queue) (m' : Marks) : Prop where
  queued : ∀ x, w'.queued x = true ↔ w.queued x = true ∨ Fresh dm nrows eps minPts q m x
  stack : ∀ x, x ∈ w'.stack ↔
    x ∈ w.stack ∨ Fresh dm nrows eps minPts q m x ∧ w.queued x = false
  nodup : w.stack.Nodup → (∀ x ∈ w.stack, w.queued x = true) → w'.stack.Nodup
  potential : w'.potential nrows = w.potential nrows
  visited : ∀ x, m'.visited x = true ↔ m.visited x = true ∨ x = q
  labels : ∀ x, m'.labels x =
    if x = q ∧ (m.labels q = -1 ∨ m.visited q = false) then (clusterId : ℤ) else m.labels x

theorem popped_visited (w : Queue) (m : Marks) :
    (popped dm nrows eps minPts clusterId q w m).2.visited x = true ↔
      m.visited x = true ∨ x = q := by
  unfold popped
  cases hq : m.visited q with
  | true =>
      have hx : x = q → m.visited x = true := fun h => h ▸ hq
      simpa using hx
  | false =>
      have hupdate : Function.update m.visited q true x = true ↔ m.visited x = true ∨ x = q := by
        by_cases hx : x = q <;> simp [hx]
      simp only [Bool.false_eq_true, if_false]
      split_ifs <;> exact hupdate

theorem popped_labels (w : Queue) (m : Marks) :
    (popped dm nrows eps minPts clusterId q w m).2.labels x =
      if x = q ∧ (m.labels q = -1 ∨ m.visited q = false) then (clusterId : ℤ)
      else m.labels x := by
  unfold popped
  by_cases hx : x = q
  · subst hx
    cases hvisited : m.visited x <;> by_cases hlabel : m.labels x = -1 <;> simp [hlabel] <;>
      split_ifs <;> simp
  · cases hvisited : m.visited q <;> by_cases hlabel : m.labels q = -1 <;> simp [hx, hlabel] <;>
      split_ifs <;> simp [hx]

theorem popped_queue (w : Queue) (m : Marks) :
    (popped dm nrows eps minPts clusterId q w m).1 =
      if m.visited q = false ∧ minPts ≤ (neighbors dm nrows eps q).length then
        enqueue (Function.update m.visited q true) (neighbors dm nrows eps q) w
      else w := by
  unfold popped
  cases hvisited : m.visited q with
  | true => simp
  | false =>
      simp only [Bool.false_eq_true, if_false, true_and]
      split_ifs <;> rfl

theorem popped_spec (w : Queue) (m : Marks) :
    Popped dm nrows eps minPts clusterId q w m (popped dm nrows eps minPts clusterId q w m).1
      (popped dm nrows eps minPts clusterId q w m).2 := by
  have hskip : ∀ x, Function.update m.visited q true x = false ↔
      x ≠ q ∧ m.visited x = false := by
    intro x
    by_cases hx : x = q <;> simp [hx]
  refine ⟨fun x => ?_, fun x => ?_, ?_, ?_, fun x => popped_visited w m,
    fun x => popped_labels w m⟩
  · rw [popped_queue]
    split_ifs with h
    · rw [enqueue_queued, hskip, Fresh, and_iff_right h]
    · simp [Fresh, h]
  · rw [popped_queue]
    split_ifs with h
    · rw [mem_enqueue_stack, hskip, Fresh, and_iff_right h]
    · simp [Fresh, h]
  · rw [popped_queue]
    intro hnodup hqueued
    split_ifs with h
    · exact enqueue_nodup _ _ hnodup hqueued
    · exact hnodup
  · rw [popped_queue]
    split_ifs with h
    · exact enqueue_potential _ (fun j hj => (mem_neighbors.mp hj).1) w
    · rfl

/-! ## The expansion of a cluster -/

/-- The points the cluster with the seed `i` may take, when the points visited before it
are given: those near the seed, and those near another of its core points that were not
visited. -/
def Taken (dm : ℕ → D) (nrows : ℕ) (eps : D) (minPts i : ℕ) (visited : ℕ → Bool) (x : ℕ) :
    Prop :=
  x = i ∨ x < nrows ∧ (Near dm eps i x ∨ visited x = false ∧
    ∃ q, Linked (Near dm eps) (Core dm nrows eps minPts) i q ∧ Near dm eps q x)

/-- The state of the expansion of the seed `i`, from the marks `m₀`.  The points that are
queued and no longer on the stack are done. -/
structure Expanding (dm : ℕ → D) (nrows : ℕ) (eps : D) (minPts clusterId i : ℕ) (m₀ : Marks)
    (w : Queue) (m : Marks) : Prop where
  nodup : w.stack.Nodup
  stacked : ∀ x ∈ w.stack, w.queued x = true ∧ x ≠ i
  seed : w.queued i = true
  sound : ∀ x, w.queued x = true → Taken dm nrows eps minPts i m₀.visited x
  visited : ∀ x, m.visited x = true ↔
    m₀.visited x = true ∨ w.queued x = true ∧ x ∉ w.stack
  labels : ∀ x, m.labels x =
    if m₀.labels x = -1 ∧ w.queued x = true ∧ x ∉ w.stack then (clusterId : ℤ)
    else m₀.labels x
  near_seed : ∀ x < nrows, Near dm eps i x → w.queued x = true
  closed : ∀ p, w.queued p = true → p ∉ w.stack → m₀.visited p = false →
    Core dm nrows eps minPts p → ∀ x < nrows, Near dm eps p x →
    m₀.visited x = true ∨ w.queued x = true

/-- A core point that may be taken is linked to the seed. -/
theorem Taken.linked {visited : ℕ → Bool} (h : Taken dm nrows eps minPts i visited x)
    (hx : Core dm nrows eps minPts x) :
    Linked (Near dm eps) (Core dm nrows eps minPts) i x := by
  rcases h with rfl | ⟨-, hnear | ⟨-, q, hlink, hnear⟩⟩
  · exact .refl x
  · exact (Linked.refl i).tail hnear hx
  · exact hlink.tail hnear hx

theorem Fresh.taken {m : Marks} {visited : ℕ → Bool} (h : Fresh dm nrows eps minPts q m x)
    (hq : Taken dm nrows eps minPts i visited q) (hcore : q < nrows)
    (hx : visited x = false) : Taken dm nrows eps minPts i visited x := by
  obtain ⟨⟨-, hpts⟩, hmem, -, -⟩ := h
  obtain ⟨hlt, hnear⟩ := mem_neighbors.mp hmem
  exact .inr ⟨hlt, .inr ⟨hx, q, hq.linked ⟨hcore, hpts⟩, hnear⟩⟩

theorem Expanding.step {m₀ m m' : Marks} {w' : Queue} {stack : List ℕ} {queued : ℕ → Bool}
    (h : Expanding dm nrows eps minPts clusterId i m₀ ⟨q :: stack, queued⟩ m)
    (hfresh : ∀ x, m₀.visited x = false → m₀.labels x = -1)
    (hi : i < nrows)
    (hp : Popped dm nrows eps minPts clusterId q ⟨stack, queued⟩ m w' m') :
    Expanding dm nrows eps minPts clusterId i m₀ w' m' := by
  obtain ⟨hq, hqi⟩ : queued q = true ∧ q ≠ i := h.stacked q List.mem_cons_self
  obtain ⟨hqstack, hnodup⟩ := List.nodup_cons.mp h.nodup
  have hstacked : ∀ x ∈ stack, queued x = true ∧ x ≠ i :=
    fun x hx => h.stacked x (List.mem_cons_of_mem _ hx)
  have hqn : q < nrows := by
    rcases h.sound q hq with heq | ⟨hlt, -⟩
    · exact absurd heq hqi
    · exact hlt
  -- before it is popped, the point has the marks it had before the expansion
  have hqvisited : m.visited q = true ↔ m₀.visited q = true := by
    rw [h.visited q]
    simp
  have hqlabel : m.labels q = m₀.labels q := by
    rw [h.labels q, if_neg (by simp)]
  have hunvisited : ∀ x, Fresh dm nrows eps minPts q m x → m₀.visited x = false := by
    intro x hx
    have hmarks := h.visited x
    rw [hx.2.2.2] at hmarks
    simpa using fun hv => hmarks.not.mp (by simp) (.inl hv)
  -- exactly one more point is done
  have hdone : ∀ x, (w'.queued x = true ∧ x ∉ w'.stack) ↔
      (queued x = true ∧ x ∉ q :: stack) ∨ x = q := by
    intro x
    have hqueued : w'.queued x = true ↔ queued x = true ∨ Fresh dm nrows eps minPts q m x :=
      hp.queued x
    have hstack : x ∈ w'.stack ↔ x ∈ stack ∨ Fresh dm nrows eps minPts q m x ∧
        queued x = false := hp.stack x
    rw [hqueued, hstack, List.mem_cons]
    by_cases hx : x = q
    · subst hx
      simp [hq, hqstack]
    · by_cases hf : Fresh dm nrows eps minPts q m x <;> cases queued x <;> simp [hx, hf]
  refine ⟨hp.nodup hnodup fun x hx => (hstacked x hx).1, fun x hx => ?_,
    (hp.queued i).mpr (.inl h.seed), fun x hx => ?_, fun x => ?_, fun x => ?_,
    fun x hx hnear => (hp.queued x).mpr (.inl (h.near_seed x hx hnear)), ?_⟩
  · -- what is on the stack is queued, and is not the seed
    rcases (hp.stack x).mp hx with hx | ⟨hx, hxq⟩
    · exact ⟨(hp.queued x).mpr (.inl (hstacked x hx).1), (hstacked x hx).2⟩
    · refine ⟨(hp.queued x).mpr (.inr hx), ?_⟩
      rintro rfl
      have hseed : queued x = true := h.seed
      exact Bool.false_ne_true (hxq.symm.trans hseed)
  · rcases (hp.queued x).mp hx with hx | hx
    · exact h.sound x hx
    · exact hx.taken (h.sound q hq) hqn (hunvisited x hx)
  · rw [hp.visited x, h.visited x, hdone x, or_assoc]
  · rw [hp.labels x, hqlabel]
    have hlabel := h.labels x
    by_cases hx : x = q
    · subst hx
      have hcond : (m₀.labels x = -1 ∨ m.visited x = false) ↔ m₀.labels x = -1 := by
        refine or_iff_left_of_imp fun hv => hfresh x ?_
        simpa using fun hv0 => Bool.false_ne_true (hv.symm.trans (hqvisited.mpr hv0))
      simp only [true_and, hcond, hdone x, or_true, and_true, hqlabel]
    · rw [if_neg (fun hc => hx hc.1), hlabel]
      simp only [hdone x, hx, or_false]
  · -- a core point that is done has put its neighbors on the stack
    intro p hpq hpstack hpvisited hpcore x hx hnear
    rw [hp.queued x]
    rcases (hdone p).mp ⟨hpq, hpstack⟩ with ⟨hold, holdstack⟩ | rfl
    · rcases h.closed p hold holdstack hpvisited hpcore x hx hnear with hv | hxq
      · exact .inl hv
      · exact .inr (.inl hxq)
    · have hpv : m.visited p = false := by
        simpa using fun hv => Bool.false_ne_true (hpvisited.symm.trans (hqvisited.mp hv))
      by_cases hxp : x = p
      · exact .inr (.inl (hxp ▸ hq))
      · cases hxv : m.visited x with
        | false => exact .inr (.inr ⟨⟨hpv, hpcore.2⟩, mem_neighbors.mpr ⟨hx, hnear⟩, hxp, hxv⟩)
        | true =>
            rcases (h.visited x).mp hxv with hv | hdonex
            · exact .inl hv
            · exact .inr (.inl hdonex.1)

/-- The loop ends with an empty stack. -/
theorem Expanding.run {m₀ : Marks} (hfresh : ∀ x, m₀.visited x = false → m₀.labels x = -1)
    (hi : i < nrows) {fuel : ℕ} {w : Queue} {m : Marks}
    (h : Expanding dm nrows eps minPts clusterId i m₀ w m) (hfuel : w.potential nrows ≤ fuel) :
    ∃ queued m', expand dm nrows eps minPts clusterId fuel w m = some m' ∧
      Expanding dm nrows eps minPts clusterId i m₀ ⟨[], queued⟩ m' := by
  induction fuel generalizing w m with
  | zero =>
      obtain ⟨stack, queued⟩ := w
      have hnil : stack = [] := by
        rw [← List.length_eq_zero_iff]
        exact Nat.eq_zero_of_le_zero (le_trans (Nat.le_add_right ..) hfuel)
      subst hnil
      exact ⟨queued, m, rfl, h⟩
  | succ fuel ih =>
      obtain ⟨stack, queued⟩ := w
      cases stack with
      | nil => exact ⟨queued, m, rfl, h⟩
      | cons q stack =>
          have hp : Popped dm nrows eps minPts clusterId q ⟨stack, queued⟩ m _ _ :=
            popped_spec ⟨stack, queued⟩ m
          have hle : (popped dm nrows eps minPts clusterId q ⟨stack, queued⟩ m).1.potential nrows
              ≤ fuel := by
            rw [hp.potential]
            simp only [Queue.potential, List.length_cons] at hfuel ⊢
            omega
          exact ih (h.step hfresh hi hp) hle

/-- The marks before the loop of an expansion: the seed is visited and labelled. -/
def Marks.seeded (m : Marks) (clusterId i : ℕ) : Marks :=
  ⟨Function.update m.visited i true, Function.update m.labels i clusterId⟩

/-- The neighbors of the seed, on the stack. -/
def seedQueue (dm : ℕ → D) (nrows : ℕ) (eps : D) (i : ℕ) : Queue :=
  enqueue (fun j => j = i) (neighbors dm nrows eps i) ⟨[], Function.update (fun _ => false) i true⟩

theorem seedQueue_queued :
    (seedQueue dm nrows eps i).queued x = true ↔ x = i ∨ x < nrows ∧ Near dm eps i x := by
  rw [seedQueue, enqueue_queued, mem_neighbors]
  by_cases hx : x = i <;> simp [hx]

theorem mem_seedQueue_stack :
    x ∈ (seedQueue dm nrows eps i).stack ↔ x ≠ i ∧ x < nrows ∧ Near dm eps i x := by
  rw [seedQueue, mem_enqueue_stack, mem_neighbors]
  by_cases hx : x = i <;> simp [hx]

theorem seedQueue_nodup : (seedQueue dm nrows eps i).stack.Nodup :=
  enqueue_nodup _ _ List.nodup_nil fun _ hx => absurd hx List.not_mem_nil

theorem seedQueue_potential : (seedQueue dm nrows eps i).potential nrows ≤ nrows := by
  rw [seedQueue, enqueue_potential _ fun j hj => (mem_neighbors.mp hj).1]
  calc Queue.potential nrows ⟨[], Function.update (fun _ => false) i true⟩
      = {x ∈ Finset.range nrows | Function.update (fun _ => false) i true x = false}.card := by
        rw [Queue.potential, List.length_nil, Nat.zero_add]
    _ ≤ (Finset.range nrows).card := Finset.card_filter_le _ _
    _ = nrows := Finset.card_range nrows

theorem expanding_seed {m : Marks} (hvisited : m.visited i = false) (hlabel : m.labels i = -1) :
    Expanding dm nrows eps minPts clusterId i m (seedQueue dm nrows eps i)
      (m.seeded clusterId i) := by
  have hdone : ∀ x, ((seedQueue dm nrows eps i).queued x = true ∧
      x ∉ (seedQueue dm nrows eps i).stack) ↔ x = i := by
    intro x
    rw [seedQueue_queued, mem_seedQueue_stack]
    tauto
  refine ⟨seedQueue_nodup, fun x hx => ?_, seedQueue_queued.mpr (.inl rfl), fun x hx => ?_,
    fun x => ?_, fun x => ?_, fun x hx hnear => seedQueue_queued.mpr (.inr ⟨hx, hnear⟩), ?_⟩
  · obtain ⟨hne, hx⟩ := mem_seedQueue_stack.mp hx
    exact ⟨seedQueue_queued.mpr (.inr hx), hne⟩
  · exact (seedQueue_queued.mp hx).imp_right fun h => ⟨h.1, .inl h.2⟩
  · rw [hdone x, Marks.seeded]
    by_cases hx : x = i <;> simp [hx]
  · simp only [hdone x, Marks.seeded]
    by_cases hx : x = i <;> simp [hx, hlabel]
  · intro p hp hpstack _ _ x hx hnear
    obtain rfl := (hdone p).mp ⟨hp, hpstack⟩
    exact .inr (seedQueue_queued.mpr (.inr ⟨hx, hnear⟩))

/-- **What an expansion does.**  The core points linked to the seed, none of which was
visited, and the points that may be taken are visited, and get the label of the cluster
unless they have one. -/
theorem expand_ok {m : Marks} (hi : i < nrows)
    (hfresh : ∀ x, m.visited x = false → m.labels x = -1)
    (hunvisited : ∀ x, Linked (Near dm eps) (Core dm nrows eps minPts) i x → m.visited x = false)
    (hcore : Core dm nrows eps minPts i) :
    ∃ m', expand dm nrows eps minPts clusterId nrows (seedQueue dm nrows eps i)
        (m.seeded clusterId i) = some m' ∧
      (∀ x, m'.visited x = true ↔ m.visited x = true ∨ Taken dm nrows eps minPts i m.visited x) ∧
      ∀ x, (Taken dm nrows eps minPts i m.visited x → m.labels x = -1 →
          m'.labels x = (clusterId : ℤ)) ∧
        (¬(Taken dm nrows eps minPts i m.visited x ∧ m.labels x = -1) →
          m'.labels x = m.labels x) := by
  have hivisited := hunvisited i (.refl i)
  have hseed : Expanding dm nrows eps minPts clusterId i m (seedQueue dm nrows eps i)
      (m.seeded clusterId i) := expanding_seed hivisited (hfresh i hivisited)
  obtain ⟨queued, m', hrun, h⟩ := hseed.run hfresh hi seedQueue_potential
  -- the points that were queued are the points that may be taken
  have hlinked : ∀ q, Linked (Near dm eps) (Core dm nrows eps minPts) i q → queued q = true := by
    intro q hq
    induction hq with
    | refl => exact h.seed
    | @tail p q hp hstep ih =>
        have hpcore := Linked.core_right hp hcore
        have hqv := hunvisited q (Linked.tail hp hstep.1 hstep.2)
        refine (h.closed p ih (by simp) (hunvisited p hp) hpcore q hstep.2.1 hstep.1).resolve_left ?_
        rw [hqv]
        exact Bool.false_ne_true
  have hqueued : ∀ x, queued x = true ↔ Taken dm nrows eps minPts i m.visited x := by
    intro x
    refine ⟨h.sound x, ?_⟩
    rintro (rfl | ⟨hx, hnear | ⟨hxv, q, hq, hnear⟩⟩)
    · exact h.seed
    · exact h.near_seed x hx hnear
    · refine (h.closed q (hlinked q hq) (by simp) (hunvisited q hq) (hq.core_right hcore) x hx
        hnear).resolve_left ?_
      rw [hxv]
      exact Bool.false_ne_true
  refine ⟨m', hrun, fun x => ?_, fun x => ⟨fun htaken hlabel => ?_, fun hnot => ?_⟩⟩
  · rw [h.visited x, ← hqueued x]
    simp
  · rw [h.labels x, if_pos ⟨hlabel, (hqueued x).mpr htaken, by simp⟩]
  · rw [h.labels x, if_neg fun hc => hnot ⟨(hqueued x).mp hc.2.1, hc.1⟩]

end Lush.Mapper
