import Lush.Ints

/-!
# Unodes

A unode is a cell whose `Car` is another unode, or `NIL`, and whose `Cdr` is a value.
When two unodes are unified, the last unodes that their links lead to are linked to a new
one.  The cells are numbered as they are made, so that links go to larger numbers.

What the calls stand for is an equivalence relation with a value for each class
(`Classes`).  The function `rep` that gives the last unode of each one connects the two
(`Represents`).
-/

namespace Lush.Unodes

/-- A unode. -/
structure Unode (V : Type) where
  car : Option ℕ
  cdr : V

/-- The unodes that have been made. -/
abbrev Heap (V : Type) := List (Unode V)

/-- A combine function: what it does with two values.  It may make unodes and it may
fail. -/
abbrev Combine (V : Type) := V → V → List V × Option V

variable {V : Type}

/-! ## The functions -/

/-- `new_unode`. -/
def newUnode (heap : Heap V) (doc : V) : Heap V := heap ++ [⟨none, doc⟩]

def notValid : Fault := .error "Not a valid unode"

/-- The loop of `unode_dive`, in at most so many rounds. -/
def diveLoop (heap : Heap V) : ℕ → ℕ → Except Fault ℕ
  | 0, _ => .error .depth
  | rounds + 1, q =>
      match heap[q]? with
      | none => .error notValid
      | some u =>
          match u.car with
          | some r => diveLoop heap rounds r
          | none => .ok q

/-- `unode_dive`. -/
def unodeDive (heap : Heap V) (p : ℕ) : Except Fault ℕ := diveLoop heap (heap.length + 1) p

/-- `p->Cdr`. -/
def cdr (heap : Heap V) (p : ℕ) : Except Fault V :=
  match heap[p]? with
  | none => .error notValid
  | some u => .ok u.cdr

/-- `unode_val`. -/
def unodeVal (heap : Heap V) (p : ℕ) : Except Fault V := do
  let q ← unodeDive heap p
  cdr heap q

/-- `unode_eq`. -/
def unodeEq (heap : Heap V) (p1 p2 : ℕ) : Except Fault Bool := do
  let q1 ← unodeDive heap p1
  let q2 ← unodeDive heap p2
  return q1 = q2

/-- `p->Car = node`. -/
def setCar (heap : Heap V) (p node : ℕ) : Heap V :=
  heap.modify p fun u => { u with car := some node }

/-- Two unodes are linked to a new one. -/
def link (heap : Heap V) (q1 q2 : ℕ) (doc : V) : Heap V :=
  setCar (setCar (newUnode heap doc) q1 heap.length) q2 heap.length

/-- `unode_unify`. -/
def unodeUnify (nil : V) (heap : Heap V) (p1 p2 : ℕ) (combine : Option (Combine V)) :
    Except Fault (Heap V) := do
  let q1 ← unodeDive heap p1
  let q2 ← unodeDive heap p2
  if q1 = q2 then return heap
  else
    match combine with
    | none => return link heap q1 q2 nil
    | some f =>
        let v1 ← cdr heap q1
        let v2 ← cdr heap q2
        let heap := (f v1 v2).1.foldl newUnode heap
        match (f v1 v2).2 with
        | none => return heap
        | some doc => return link heap q1 q2 doc

/-- A call at the top level. -/
inductive Call (V : Type)
  | new (doc : V)
  | unify (p1 p2 : ℕ) (combine : Option (Combine V))

/-- A call that ends with an error leaves the unodes as they are. -/
def step (nil : V) (heap : Heap V) : Call V → Except Fault (Heap V)
  | .new doc => .ok (newUnode heap doc)
  | .unify p1 p2 combine =>
      match unodeUnify nil heap p1 p2 combine with
      | .error (.error _) => .ok heap
      | result => result

/-- A sequence of calls. -/
def run (nil : V) (calls : List (Call V)) : Except Fault (Heap V) :=
  calls.foldlM (step nil) []

/-! ## Classes -/

/-- An equivalence relation on the first `size` numbers, given by links, with values. -/
structure Classes (V : Type) where
  size : ℕ
  links : List (ℕ × ℕ)
  value : ℕ → V

/-- Two unodes are connected. -/
def Classes.Same (c : Classes V) : ℕ → ℕ → Prop :=
  Relation.EqvGen fun p q => (p, q) ∈ c.links

/-- A new class. -/
def Classes.new (c : Classes V) (doc : V) : Classes V :=
  { c with size := c.size + 1, value := Function.update c.value c.size doc }

/-- A new unode is connected with two others. -/
def Classes.connect (c : Classes V) (p1 p2 : ℕ) : Classes V :=
  { c with size := c.size + 1, links := (p1, p2) :: (p1, c.size) :: c.links }

open Classical in
/-- All members of the class of `p` get the value. -/
noncomputable def Classes.assign (c : Classes V) (p : ℕ) (doc : V) : Classes V :=
  { c with value := fun q => if c.Same p q then doc else c.value q }

open Classical in
/-- What a call does: the value of a class that is made of two is the combination of
theirs. -/
noncomputable def Classes.step (nil : V) (c : Classes V) : Call V → Classes V
  | .new doc => c.new doc
  | .unify p1 p2 combine =>
      if c.size ≤ p1 ∨ c.size ≤ p2 ∨ c.Same p1 p2 then c
      else
        match combine with
        | none => (c.connect p1 p2).assign p1 nil
        | some f =>
            let c' := (f (c.value p1) (c.value p2)).1.foldl Classes.new c
            match (f (c.value p1) (c.value p2)).2 with
            | none => c'
            | some doc => (c'.connect p1 p2).assign p1 doc

/-- What a sequence of calls stands for. -/
noncomputable def classes (nil : V) (calls : List (Call V)) : Classes V :=
  calls.foldl (Classes.step nil) ⟨0, [], fun _ => nil⟩

/-! ## The last unode of each one -/

/-- Every unode leads to the unode `rep` gives, and links go to unodes made later. -/
structure Represents (heap : Heap V) (rep : ℕ → ℕ) : Prop where
  up : ∀ p u r, heap[p]? = some u → u.car = some r → p < r ∧ r < heap.length ∧ rep r = rep p
  last : ∀ p u, heap[p]? = some u → u.car = none → rep p = p
  outside : ∀ p, heap.length ≤ p → rep p = p

variable {heap : Heap V} {rep : ℕ → ℕ} {c : Classes V} {p q p1 p2 : ℕ} {doc nil : V}

/-- The loop ends, at the last unode. -/
theorem Represents.diveLoop (h : Represents heap rep) {n : ℕ} (hp : p < heap.length)
    (hn : heap.length < p + n) :
    Unodes.diveLoop heap n p = .ok (rep p) ∧ ∃ v, heap[rep p]? = some ⟨none, v⟩ := by
  induction n generalizing p with
  | zero => omega
  | succ n ih =>
      have hget := List.getElem?_eq_getElem hp
      cases hcar : heap[p].car with
      | none =>
          have hlast := h.last p _ hget hcar
          rw [Unodes.diveLoop, hget, hlast]
          refine ⟨by simp only [hcar], heap[p].cdr, ?_⟩
          rw [hget, ← hcar]
      | some r =>
          obtain ⟨hlt, hr, hrep⟩ := h.up p _ r hget hcar
          rw [Unodes.diveLoop, hget, ← hrep]
          simp only [hcar]
          exact ih hr (by omega)

theorem Represents.dive (h : Represents heap rep) (hp : p < heap.length) :
    unodeDive heap p = .ok (rep p) := (h.diveLoop hp (by omega)).1

theorem Represents.root (h : Represents heap rep) (hp : p < heap.length) :
    ∃ v, heap[rep p]? = some ⟨none, v⟩ :=
  (h.diveLoop (n := heap.length + 1) hp (by omega)).2

theorem Represents.rep_lt (h : Represents heap rep) (hp : p < heap.length) :
    rep p < heap.length := by
  obtain ⟨v, hv⟩ := h.root hp
  exact (List.getElem?_eq_some_iff.mp hv).1

theorem Represents.rep_rep (h : Represents heap rep) (hp : p < heap.length) :
    rep (rep p) = rep p := by
  obtain ⟨v, hv⟩ := h.root hp
  exact h.last _ _ hv rfl

theorem unodeDive_outside (hp : heap.length ≤ p) : unodeDive heap p = .error notValid := by
  rw [unodeDive, Unodes.diveLoop, List.getElem?_eq_none hp]

/-- The `Car` of a unode. -/
def Leads (heap : Heap V) (p q : ℕ) : Prop := ∃ u, heap[p]? = some u ∧ u.car = some q

/-- The links have no cycle. -/
theorem Represents.acyclic (h : Represents heap rep) (p : ℕ) :
    ¬ Relation.TransGen (Leads heap) p p := by
  have hlt : ∀ q, Relation.TransGen (Leads heap) p q → p < q := by
    intro q hq
    induction hq with
    | single hstep =>
        obtain ⟨u, hu, hcar⟩ := hstep
        exact (h.up _ u _ hu hcar).1
    | tail _ hstep ih =>
        obtain ⟨u, hu, hcar⟩ := hstep
        exact ih.trans (h.up _ u _ hu hcar).1
  exact fun hcycle => lt_irrefl p (hlt p hcycle)

/-! ## New unodes and links -/

theorem getElem?_newUnode : (newUnode heap doc)[p]? =
    if p = heap.length then some ⟨none, doc⟩ else heap[p]? := by
  unfold newUnode
  rw [List.getElem?_append]
  split_ifs with hlt heq heq
  · omega
  · rfl
  · rw [heq, Nat.sub_self]
    rfl
  · rw [List.getElem?_eq_none (by simp; omega), List.getElem?_eq_none (by omega)]

theorem Represents.newUnode (h : Represents heap rep) (doc : V) :
    Represents (Unodes.newUnode heap doc) rep := by
  have hlen : (Unodes.newUnode heap doc).length = heap.length + 1 := by simp [Unodes.newUnode]
  refine ⟨?_, ?_, ?_⟩
  · intro p u r hu hcar
    rw [getElem?_newUnode] at hu
    split_ifs at hu with hp
    · cases hu
      cases hcar
    · obtain ⟨hlt, hr, hrep⟩ := h.up p u r hu hcar
      exact ⟨hlt, by omega, hrep⟩
  · intro p u hu hcar
    rw [getElem?_newUnode] at hu
    split_ifs at hu with hp
    · exact h.outside p hp.ge
    · exact h.last p u hu hcar
  · intro p hp
    exact h.outside p (by omega)

/-- The last unode of each one after `q1` and `q2` are linked to the unode `n`. -/
def joined (rep : ℕ → ℕ) (q1 q2 n : ℕ) (p : ℕ) : ℕ :=
  if rep p = q1 ∨ rep p = q2 then n else rep p

variable {q1 q2 : ℕ}

theorem length_link : (link heap q1 q2 doc).length = heap.length + 1 := by
  simp [link, setCar, newUnode]

theorem getElem?_link (h1 : q1 < heap.length) (h2 : q2 < heap.length) :
    (link heap q1 q2 doc)[p]? =
      if p = heap.length then some ⟨none, doc⟩
      else heap[p]?.map fun u =>
        if p = q1 ∨ p = q2 then { u with car := some heap.length } else u := by
  unfold link setCar
  rw [List.getElem?_modify, List.getElem?_modify, getElem?_newUnode]
  by_cases hp : p = heap.length
  · have hq1 : q1 ≠ p := by omega
    have hq2 : q2 ≠ p := by omega
    simp [hp ▸ hq1, hp ▸ hq2, hp]
  · rw [if_neg hp, if_neg hp]
    cases heap[p]? with
    | none => rfl
    | some u =>
        by_cases hq1 : q1 = p
        · by_cases hq2 : q2 = p <;> simp [hq1, hq2]
        · by_cases hq2 : q2 = p
          · simp [hq1, hq2]
          · simp [hq1, hq2, Ne.symm hq1, Ne.symm hq2]

theorem Represents.link (h : Represents heap rep) (h1 : p1 < heap.length) (h2 : p2 < heap.length)
    (doc : V) :
    Represents (Unodes.link heap (rep p1) (rep p2) doc)
      (joined rep (rep p1) (rep p2) heap.length) := by
  have hlt1 := h.rep_lt h1
  have hlt2 := h.rep_lt h2
  have hnode : joined rep (rep p1) (rep p2) heap.length heap.length = heap.length := by
    have hout := h.outside heap.length le_rfl
    unfold joined
    rw [if_neg (by omega), hout]
  refine ⟨?_, ?_, ?_⟩
  · intro p u r hu hcar
    rw [getElem?_link hlt1 hlt2] at hu
    rw [length_link]
    by_cases hp : p = heap.length
    · rw [if_pos hp] at hu
      cases hu
      cases hcar
    rw [if_neg hp] at hu
    obtain ⟨u', hu', rfl⟩ := Option.map_eq_some_iff.mp hu
    have hp' : p < heap.length := (List.getElem?_eq_some_iff.mp hu').1
    by_cases hq : p = rep p1 ∨ p = rep p2
    · -- one of the two unodes that are linked
      rw [if_pos hq] at hcar
      cases hcar
      have hself : rep p = p := by
        rcases hq with rfl | rfl
        · exact h.rep_rep h1
        · exact h.rep_rep h2
      have hjoined : joined rep (rep p1) (rep p2) heap.length p = heap.length := by
        unfold joined
        rw [hself, if_pos hq]
      exact ⟨hp', by omega, by rw [hnode, hjoined]⟩
    · rw [if_neg hq] at hcar
      obtain ⟨hlt, hr, hrep⟩ := h.up p u' r hu' hcar
      refine ⟨hlt, by omega, ?_⟩
      unfold joined
      rw [hrep]
  · intro p u hu hcar
    rw [getElem?_link hlt1 hlt2] at hu
    by_cases hp : p = heap.length
    · rw [hp, hnode]
    rw [if_neg hp] at hu
    obtain ⟨u', hu', rfl⟩ := Option.map_eq_some_iff.mp hu
    by_cases hq : p = rep p1 ∨ p = rep p2
    · rw [if_pos hq] at hcar
      cases hcar
    · rw [if_neg hq] at hcar
      have hself := h.last p u' hu' hcar
      unfold joined
      rw [hself, if_neg hq]
  · intro p hp
    rw [length_link] at hp
    have hout := h.outside p (by omega)
    unfold joined
    rw [hout, if_neg (by omega)]

/-! ## The unodes stand for the classes -/

/-- The unodes stand for the classes: two of them are in one class if they have the same
last unode, and that has the value. -/
structure Stands (heap : Heap V) (rep : ℕ → ℕ) (c : Classes V) : Prop where
  represents : Represents heap rep
  size : heap.length = c.size
  links : ∀ l ∈ c.links, rep l.1 = rep l.2
  same : ∀ p q, p < c.size → q < c.size → rep p = rep q → c.Same p q
  value : ∀ p < c.size, heap[rep p]? = some ⟨none, c.value p⟩

/-- What links respect is the same on a class. -/
theorem Classes.Same.eq_of_links {f : ℕ → ℕ} (hlinks : ∀ l ∈ c.links, f l.1 = f l.2)
    (hpq : c.Same p q) : f p = f q := by
  induction hpq with
  | rel p q hmem => exact hlinks (p, q) hmem
  | refl p => rfl
  | symm p q _ ih => exact ih.symm
  | trans p q r _ _ ih ih' => exact ih.trans ih'

theorem Stands.rep_eq (h : Stands heap rep c) (hpq : c.Same p q) : rep p = rep q :=
  hpq.eq_of_links h.links

theorem Stands.same_iff (h : Stands heap rep c) (hp : p < c.size) (hq : q < c.size) :
    c.Same p q ↔ rep p = rep q :=
  ⟨h.rep_eq, h.same p q hp hq⟩

/-- A new unode is a class of its own. -/
theorem Stands.new (h : Stands heap rep c) (doc : V) :
    Stands (newUnode heap doc) rep (c.new doc) := by
  have hout := h.represents.outside c.size h.size.le
  refine ⟨h.represents.newUnode doc, ?_, h.links, ?_, ?_⟩
  · simp [newUnode, Classes.new, h.size]
  · intro p q hp hq heq
    have hlt : ∀ r, r < c.size → rep r ≠ c.size := by
      intro r hr
      have hrep := h.represents.rep_lt (h.size ▸ hr)
      rw [h.size] at hrep
      exact hrep.ne
    have hp' : p < c.size ∨ p = c.size := Nat.lt_succ_iff_lt_or_eq.mp hp
    have hq' : q < c.size ∨ q = c.size := Nat.lt_succ_iff_lt_or_eq.mp hq
    rcases hp' with hp' | rfl
    · rcases hq' with hq' | rfl
      · exact h.same p q hp' hq' heq
      · exact absurd (heq.trans hout) (hlt p hp')
    · rcases hq' with hq' | rfl
      · exact absurd (heq.symm.trans hout) (hlt q hq')
      · exact .refl _
  · intro p hp
    rcases Nat.lt_succ_iff_lt_or_eq.mp hp with hp | rfl
    · have hrep := h.represents.rep_lt (h.size ▸ hp)
      rw [getElem?_newUnode, if_neg hrep.ne, h.value p hp]
      simp [Classes.new, Function.update_of_ne hp.ne]
    · rw [hout, getElem?_newUnode, if_pos h.size.symm]
      simp [Classes.new]

/-! ## Links -/

theorem Classes.Same.connect (hpq : c.Same p q) (p1 p2 : ℕ) : (c.connect p1 p2).Same p q :=
  hpq.mono fun _ _ hmem => List.mem_cons_of_mem _ (List.mem_cons_of_mem _ hmem)

theorem Classes.same_connect : (c.connect p1 p2).Same p1 p2 :=
  .rel _ _ List.mem_cons_self

theorem Classes.same_connect_size : (c.connect p1 p2).Same p1 c.size :=
  .rel _ _ (List.mem_cons_of_mem _ List.mem_cons_self)

/-- An unode has the new one as its last one if it was in one of the two classes. -/
theorem Stands.joined_eq (h : Stands heap rep c) (hp : p < c.size) :
    joined rep (rep p1) (rep p2) c.size p = c.size ↔ rep p = rep p1 ∨ rep p = rep p2 := by
  have hrep := h.represents.rep_lt (h.size ▸ hp)
  rw [h.size] at hrep
  unfold joined
  split_ifs with hq
  · exact iff_of_true rfl hq
  · exact iff_of_false hrep.ne hq

theorem Stands.joined_size (h : Stands heap rep c) :
    joined rep (rep p1) (rep p2) c.size c.size = c.size := by
  have hout := h.represents.outside c.size h.size.le
  unfold joined
  rw [hout, ite_self]

theorem Stands.joined_links (h : Stands heap rep c) (h1 : p1 < c.size) (h2 : p2 < c.size) :
    ∀ l ∈ (c.connect p1 p2).links,
      joined rep (rep p1) (rep p2) c.size l.1 = joined rep (rep p1) (rep p2) c.size l.2 := by
  have hp1 : joined rep (rep p1) (rep p2) c.size p1 = c.size := (h.joined_eq h1).mpr (.inl rfl)
  intro l hl
  rcases List.mem_cons.mp hl with rfl | hl
  · rw [hp1, (h.joined_eq h2).mpr (.inr rfl)]
  rcases List.mem_cons.mp hl with rfl | hl
  · rw [hp1, h.joined_size]
  · unfold joined
    rw [h.links l hl]

/-- The unodes of the new class. -/
theorem Stands.same_of_joined (h : Stands heap rep c) (h1 : p1 < c.size) (h2 : p2 < c.size)
    (hp : p < c.size + 1) (heq : joined rep (rep p1) (rep p2) c.size p = c.size) :
    (c.connect p1 p2).Same p1 p := by
  rcases Nat.lt_succ_iff_lt_or_eq.mp hp with hp | rfl
  · rcases (h.joined_eq hp).mp heq with heq | heq
    · exact (h.same p1 p h1 hp heq.symm).connect p1 p2
    · exact Classes.same_connect.trans _ _ _ ((h.same p2 p h2 hp heq.symm).connect p1 p2)
  · exact Classes.same_connect_size

/-- The last unodes of two classes are linked to a new one, and the classes are made one. -/
theorem Stands.link (h : Stands heap rep c) (h1 : p1 < c.size) (h2 : p2 < c.size) (doc : V) :
    Stands (Unodes.link heap (rep p1) (rep p2) doc) (joined rep (rep p1) (rep p2) c.size)
      ((c.connect p1 p2).assign p1 doc) := by
  have hsize := h.size
  have hlinks := h.joined_links h1 h2
  have hp1 : joined rep (rep p1) (rep p2) c.size p1 = c.size := (h.joined_eq h1).mpr (.inl rfl)
  -- outside the new class nothing changes
  have hold : ∀ p < c.size + 1, joined rep (rep p1) (rep p2) c.size p ≠ c.size →
      p < c.size ∧ joined rep (rep p1) (rep p2) c.size p = rep p := by
    intro p hp hne
    rcases Nat.lt_succ_iff_lt_or_eq.mp hp with hp | rfl
    · refine ⟨hp, ?_⟩
      have hnot := mt (h.joined_eq hp).mpr hne
      unfold joined
      rw [if_neg hnot]
    · exact absurd (h.joined_size) hne
  refine ⟨hsize ▸ h.represents.link (hsize ▸ h1) (hsize ▸ h2) doc, ?_, hlinks, ?_, ?_⟩
  · rw [length_link, hsize]
    rfl
  · intro p q hp hq heq
    by_cases hjoined : joined rep (rep p1) (rep p2) c.size p = c.size
    · have hp' := h.same_of_joined h1 h2 hp hjoined
      have hq' := h.same_of_joined h1 h2 hq (heq.symm.trans hjoined)
      exact (hp'.symm _ _).trans _ _ _ hq'
    · obtain ⟨hp', hreppp⟩ := hold p hp hjoined
      obtain ⟨hq', hrepq⟩ := hold q hq (heq ▸ hjoined)
      have hreps : rep p = rep q := by rw [← hreppp, heq, hrepq]
      exact (h.same p q hp' hq' hreps).connect p1 p2
  · intro p hp
    have hlt1 := h.represents.rep_lt (hsize ▸ h1)
    have hlt2 := h.represents.rep_lt (hsize ▸ h2)
    rw [getElem?_link hlt1 hlt2, hsize]
    by_cases hjoined : joined rep (rep p1) (rep p2) c.size p = c.size
    · have hsame := h.same_of_joined h1 h2 hp hjoined
      rw [if_pos hjoined, Classes.assign]
      simp only [if_pos hsame]
    · have hnot : ¬ (c.connect p1 p2).Same p1 p := fun hsame =>
        hjoined ((hsame.eq_of_links hlinks).symm.trans hp1)
      obtain ⟨hp', hrepp⟩ := hold p hp hjoined
      have hout : ¬ (rep p = rep p1 ∨ rep p = rep p2) := mt (h.joined_eq hp').mpr hjoined
      rw [if_neg hjoined, hrepp, h.value p hp', Option.map_some, if_neg hout, Classes.assign]
      simp only [if_neg hnot]
      rfl

/-! ## Runs -/

theorem Stands.foldl_new (h : Stands heap rep c) (docs : List V) :
    Stands (docs.foldl newUnode heap) rep (docs.foldl Classes.new c) := by
  induction docs generalizing heap c with
  | nil => exact h
  | cons doc docs ih => exact ih (h.new doc)

theorem Stands.unodeDive (h : Stands heap rep c) (hp : p < c.size) :
    Unodes.unodeDive heap p = .ok (rep p) :=
  h.represents.dive (h.size ▸ hp)

theorem Stands.cdr (h : Stands heap rep c) (hp : p < c.size) :
    Unodes.cdr heap (rep p) = .ok (c.value p) := by
  rw [Unodes.cdr, h.value p hp]

theorem Stands.size_le (h : Stands heap rep c) (docs : List V) :
    c.size ≤ (docs.foldl Classes.new c).size := by
  induction docs generalizing heap c with
  | nil => exact le_rfl
  | cons doc docs ih => exact (Nat.le_succ _).trans (ih (h.new doc))

/-- A unification is what it is for the classes. -/
theorem Stands.unify (h : Stands heap rep c) (nil : V) (h1 : p1 < c.size) (h2 : p2 < c.size)
    (combine : Option (Combine V)) :
    ∃ heap' rep', unodeUnify nil heap p1 p2 combine = .ok heap' ∧
      Stands heap' rep' (c.step nil (.unify p1 p2 combine)) := by
  unfold unodeUnify
  simp only [Classes.step, h.unodeDive h1, h.unodeDive h2, ok_bind]
  by_cases hsame : c.Same p1 p2
  · refine ⟨heap, rep, if_pos (h.rep_eq hsame), ?_⟩
    rwa [if_pos (Or.inr (Or.inr hsame))]
  have hrep : rep p1 ≠ rep p2 := mt (h.same p1 p2 h1 h2) hsame
  have hvalid : ¬ (c.size ≤ p1 ∨ c.size ≤ p2 ∨ c.Same p1 p2) := by
    push Not
    exact ⟨h1, h2, hsame⟩
  rw [if_neg hvalid]
  cases combine with
  | none => exact ⟨_, _, if_neg hrep, h.link h1 h2 nil⟩
  | some f =>
      simp only [ok_bind, if_neg hrep, h.cdr h1, h.cdr h2]
      have hnew := h.foldl_new (f (c.value p1) (c.value p2)).1
      have hle := h.size_le (f (c.value p1) (c.value p2)).1
      cases (f (c.value p1) (c.value p2)).2 with
      | none => exact ⟨_, _, rfl, hnew⟩
      | some doc => exact ⟨_, _, rfl, hnew.link (h1.trans_le hle) (h2.trans_le hle) doc⟩

/-- A call is what it is for the classes. -/
theorem Stands.step (h : Stands heap rep c) (nil : V) (call : Call V) :
    ∃ heap' rep', Unodes.step nil heap call = .ok heap' ∧ Stands heap' rep' (c.step nil call) := by
  cases call with
  | new doc => exact ⟨_, rep, rfl, h.new doc⟩
  | unify p1 p2 combine =>
      by_cases hvalid : p1 < c.size ∧ p2 < c.size
      · obtain ⟨heap', rep', hunify, hstands⟩ := h.unify nil hvalid.1 hvalid.2 combine
        refine ⟨heap', rep', ?_, hstands⟩
        rw [Unodes.step, hunify]
      · -- one of the two is no unode
        refine ⟨heap, rep, ?_, ?_⟩
        · have herror : unodeUnify nil heap p1 p2 combine = .error notValid := by
            unfold unodeUnify
            by_cases h1 : p1 < c.size
            · have h2 : c.size ≤ p2 := Nat.le_of_not_lt fun h2 => hvalid ⟨h1, h2⟩
              rw [h.unodeDive h1, unodeDive_outside (h.size ▸ h2)]
              rfl
            · rw [unodeDive_outside (h.size ▸ Nat.le_of_not_lt h1)]
              rfl
          rw [Unodes.step, herror]
          rfl
        · simp only [Classes.step]
          rwa [if_pos (by omega)]

/-- A run is what it is for the classes. -/
theorem Stands.run (h : Stands heap rep c) (nil : V) (calls : List (Call V)) :
    ∃ heap' rep', calls.foldlM (Unodes.step nil) heap = .ok heap' ∧
      Stands heap' rep' (calls.foldl (Classes.step nil) c) := by
  induction calls generalizing heap rep c with
  | nil => exact ⟨heap, rep, rfl, h⟩
  | cons call calls ih =>
      obtain ⟨heap', rep', hstep, hstands⟩ := h.step nil call
      rw [List.foldlM_cons, hstep]
      exact ih hstands

theorem stands_nil (nil : V) : Stands [] id ⟨0, [], fun _ => nil⟩ where
  represents := ⟨fun p u r hu => by simp at hu, fun _ _ _ _ => rfl, fun _ _ => rfl⟩
  size := rfl
  links := fun l hl => by cases hl
  same := fun p q hp => by cases hp
  value := fun p hp => by cases hp

open Classical in
/-- After every sequence of calls the links have no cycle and every unode leads to a last
one, two unodes are equal if the calls have connected them, and the value of a unode is that
of its class. -/
theorem unodes_classes (nil : V) (calls : List (Call V)) :
    ∃ heap, run nil calls = .ok heap ∧ heap.length = (classes nil calls).size ∧
      (∀ p, ¬ Relation.TransGen (Leads heap) p p) ∧
      (∀ p < heap.length, ∃ q, unodeDive heap p = .ok q) ∧
      (∀ p < heap.length, ∀ q < heap.length,
        unodeEq heap p q = .ok (decide ((classes nil calls).Same p q))) ∧
      (∀ p < heap.length, unodeVal heap p = .ok ((classes nil calls).value p)) ∧
      ∀ p < heap.length, ∀ q < heap.length, (classes nil calls).Same p q →
        (classes nil calls).value p = (classes nil calls).value q := by
  obtain ⟨heap, rep, hrun, h⟩ := (stands_nil nil).run nil calls
  refine ⟨heap, hrun, h.size, h.represents.acyclic, ?_, ?_, ?_, ?_⟩
  · exact fun p hp => ⟨rep p, h.represents.dive hp⟩
  · intro p hp q hq
    rw [unodeEq, h.represents.dive hp, h.represents.dive hq]
    have hsame := h.same_iff (h.size ▸ hp) (h.size ▸ hq)
    simp only [ok_bind]
    exact congrArg Except.ok (decide_eq_decide.mpr hsame.symm)
  · intro p hp
    rw [unodeVal, h.represents.dive hp, ok_bind]
    exact h.cdr (h.size ▸ hp)
  · intro p hp q hq hsame
    have hvalue := h.value p (h.size ▸ hp)
    rw [h.rep_eq hsame, h.value q (h.size ▸ hq)] at hvalue
    exact (congrArg Unode.cdr (Option.some.inj hvalue)).symm

end Lush.Unodes
