import Mathlib
import Lush.Library.Traversal

/-!
# Backpatching

The nodes of a graph are read one after the other, each with its fields after it.  A field
may refer to a node whose reading is not complete and whose place nobody is told yet.  The
places that wait for such a node are threaded through themselves: a table holds the last
of them, each of them points to the one before, and when the node is complete it is put
everywhere on its thread.

A store is seen through a `View`, and what happens to it is stated by relations between
views; `τ` is the type of the places.  Four things happen, and each keeps the invariant
`Reading`:

* `Reading.write`: a null pointer or a known node is stored;
* `Reading.thread`: a place joins the thread of an open node;
* `Reading.enter`: a new node is stored, and opened if it will be referred to;
* `Reading.close`: a node is complete, and its thread is patched.

`Result` says what reading one reference leaves behind, and `Results` the same for the
fields of a node.
-/

namespace Lush.Backpatch

open Traversal

/-! ## Words and views -/

/-- What a place holds: a null pointer, a node, or a place of the thread that it is on. -/
inductive Word (τ : Type)
  | null
  | obj (n : ℕ)
  | slot (s : τ)
deriving DecidableEq

/-- The state of an entry of the table. -/
inductive Flag
  | empty
  | refd
  | defd
deriving DecidableEq

section

variable {τ : Type}

/-- A reference, as a word. -/
def Word.ofRef : Option ℕ → Word τ
  | none => .null
  | some n => .obj n

/-- The reference in a word; a place is not one. -/
def Word.ref : Word τ → Option ℕ
  | .obj n => some n
  | _ => none

@[simp] theorem Word.ref_ofRef (p : Option ℕ) : (Word.ofRef p : Word τ).ref = p := by
  cases p <;> rfl

/-- The head of a thread. -/
def link : List τ → Word τ
  | [] => .null
  | s :: _ => .slot s

end

/-- What can be seen of a store: the words at the places, the number of nodes, their
shapes, and the table. -/
structure View (τ S : Type) where
  get : τ → Option (Word τ)
  size : ℕ
  shape : ℕ → Option S
  table : List (Word τ × Flag)

variable {τ S ν : Type} {v v' : View τ S} {s pp : τ} {w : Word τ}

/-- The place exists. -/
def View.Valid (v : View τ S) (s : τ) : Prop := (v.get s).isSome

theorem View.Valid.of_get (h : v.get s = some w) : v.Valid s := by
  simp [View.Valid, h]

/-- Each place of the thread points to the next one. -/
def Threaded (v : View τ S) : List τ → Prop
  | [] => True
  | s :: ss => v.get s = some (link ss) ∧ Threaded v ss

theorem Threaded.valid {ss : List τ} (h : Threaded v ss) : ∀ s ∈ ss, v.Valid s := by
  induction ss with
  | nil => exact List.forall_mem_nil _
  | cons s ss ih => exact List.forall_mem_cons.mpr ⟨.of_get h.1, ih h.2⟩

theorem Threaded.congr {ss : List τ} (h : Threaded v ss) (hget : ∀ s ∈ ss, v'.get s = v.get s) :
    Threaded v' ss := by
  induction ss with
  | nil => trivial
  | cons s ss ih =>
      obtain ⟨hs, hss⟩ := List.forall_mem_cons.mp hget
      exact ⟨hs.trans h.1, ih h.2 hss⟩

/-- No place of a thread holds a node. -/
theorem Threaded.get_ne {ss : List τ} (h : Threaded v ss) (hs : s ∈ ss) (n : ℕ) :
    v.get s ≠ some (.obj n) := by
  induction ss with
  | nil => simp at hs
  | cons s' ss ih =>
      rcases List.mem_cons.mp hs with rfl | hs
      · rw [h.1]
        cases ss <;> simp [link]
      · exact ih h.2 hs

/-! ## What happens to a store -/

/-- A word is stored in a place; the table is not part of it. -/
structure Stored (v v' : View τ S) (pp : τ) (w : Word τ) : Prop where
  self : v'.get pp = some w
  frame : ∀ s ≠ pp, v'.get s = v.get s
  size : v'.size = v.size
  shape : v'.shape = v.shape

/-- A new node of some shape is stored in a place. -/
structure Made (v v' : View τ S) (pp : τ) (shape : S) : Prop where
  self : v'.get pp = some (.obj v.size)
  frame : ∀ s, v.Valid s → s ≠ pp → v'.get s = v.get s
  size : v'.size = v.size + 1
  older : ∀ m < v.size, v'.shape m = v.shape m
  shape : v'.shape v.size = some shape
  table : v'.table = v.table

/-- A node is put in all places of a thread; the table is not part of it. -/
structure Patched (v v' : View τ S) (w : Word τ) (ss : List τ) : Prop where
  mem : ∀ s ∈ ss, v'.get s = some w
  frame : ∀ s ∉ ss, v'.get s = v.get s
  size : v'.size = v.size
  shape : v'.shape = v.shape

/-! ## The invariant -/

/-- The place of each visited node, the reference that each place was read for, the nodes
being defined, and the threads of these. -/
structure Ghost (ν τ : Type) where
  place : ν → ℕ
  owner : τ → Option (Option ν)
  opened : Finset ν
  chain : ν → List τ

variable [DecidableEq ν] {shape : ν → S} {ks : List ν} {c c' : ν → ℕ} {g g' : Ghost ν τ}

/-- The entry of a node in the table. -/
def Ghost.entry [DecidableEq τ] (c : ν → ℕ) (g : Ghost ν τ) (a : ν) : Word τ × Flag :=
  if c a = 0 then (.null, .empty)
  else if a ∈ g.opened then (link (g.chain a), if g.chain a = [] then .empty else .refd)
  else (.obj (g.place a), .defd)

variable [DecidableEq τ]

/-- What the entry of a node depends on. -/
theorem Ghost.entry_congr {a : ν} (hc : c' a = 0 ↔ c a = 0)
    (hopen : a ∈ g'.opened ↔ a ∈ g.opened) (hchain : g'.chain a = g.chain a)
    (hplace : g'.place a = g.place a) : g'.entry c' a = g.entry c a := by
  simp only [Ghost.entry, hc, hopen, hchain, hplace]

/-- The place `s` holds what the reference is read as, or waits for it. -/
def Settled (c : ν → ℕ) (g : Ghost ν τ) (v : View τ S) (s : τ) : Option ν → Prop
  | none => v.get s = some .null
  | some b => c b ≠ 0 ∧ (v.get s = some (.obj (g.place b)) ∨ b ∈ g.opened ∧ s ∈ g.chain b)

/-- The state of a store after the visits `c`. -/
structure Reading (shape : ν → S) (ks : List ν) (c : ν → ℕ) (g : Ghost ν τ) (v : View τ S) :
    Prop where
  place_lt : ∀ a, c a ≠ 0 → g.place a < v.size
  shape : ∀ a, c a ≠ 0 → v.shape (g.place a) = some (shape a)
  inj : ∀ a b, c a ≠ 0 → c b ≠ 0 → g.place a = g.place b → a = b
  settled : ∀ s q, g.owner s = some q → Settled c g v s q
  chained : ∀ a ∈ g.opened, ∀ s ∈ g.chain a, g.owner s = some (some a)
  threaded : ∀ a ∈ g.opened, Threaded v (g.chain a)
  nodup : ∀ a ∈ g.opened, (g.chain a).Nodup
  visited : ∀ a ∈ g.opened, c a ≠ 0
  table : v.table = ks.map (g.entry c)

/-- A place that was read for something exists. -/
theorem Reading.valid (h : Reading shape ks c g v) {q : Option ν} (hs : g.owner s = some q) :
    v.Valid s := by
  have hsettled := h.settled s q hs
  cases q with
  | none => exact .of_get hsettled
  | some b =>
      rcases hsettled.2 with hget | ⟨hopen, hchain⟩
      · exact .of_get hget
      · exact (h.threaded b hopen).valid s hchain

omit [DecidableEq τ] [DecidableEq ν] in
/-- A settled place stays settled when the nodes it depends on stay. -/
theorem Settled.mono {q : Option ν} (h : Settled c g v s q) (hget : v'.get s = v.get s)
    (hseen : ∀ b, c b ≠ 0 → c' b ≠ 0 ∧ g'.place b = g.place b)
    (hchain : ∀ b, c b ≠ 0 → b ∈ g.opened → s ∈ g.chain b → b ∈ g'.opened ∧ s ∈ g'.chain b) :
    Settled c' g' v' s q := by
  cases q with
  | none => exact hget.trans h
  | some b =>
      obtain ⟨hc, hor⟩ := h
      obtain ⟨hc', hplace⟩ := hseen b hc
      refine ⟨hc', ?_⟩
      rcases hor with hobj | ⟨hopen, hmem⟩
      · exact Or.inl (by rw [hget, hobj, hplace])
      · exact Or.inr (hchain b hc hopen hmem)

/-- The entry of a node, found at its rank. -/
theorem Reading.table_eq (h : Reading shape ks c g v) {a : ν} (ha : a ∈ ks) :
    v.table[ks.idxOf a]? = some (g.entry c a) := by
  rw [h.table, List.getElem?_map,
    List.getElem?_eq_getElem (List.idxOf_lt_length_of_mem ha), List.getElem_idxOf]
  rfl

omit [DecidableEq τ] in
/-- Changing the entry of one node. -/
theorem set_map_idxOf {β : Type} {f f' : ν → β} (hnodup : ks.Nodup) {a : ν}
    (hf : ∀ b ∈ ks, b ≠ a → f' b = f b) : (ks.map f).set (ks.idxOf a) (f' a) = ks.map f' := by
  apply List.ext_getElem (by simp)
  intro i h1 h2
  have hi : i < ks.length := by simpa using h2
  rw [List.getElem_set]
  by_cases hia : ks.idxOf a = i
  · subst hia
    simp
  · have hne : ks[i] ≠ a := by
      rintro rfl
      exact hia (hnodup.idxOf_getElem i hi)
    simp [hia, hf _ (List.getElem_mem hi) hne]

/-- Nothing has been read yet. -/
def Ghost.start (ν τ : Type) : Ghost ν τ := ⟨fun _ => 0, fun _ => none, ∅, fun _ => []⟩

theorem reading_start (shape : ν → S) (ks : List ν)
    (htable : v.table = List.replicate ks.length (.null, .empty)) :
    Reading shape ks (fun _ => 0) (Ghost.start ν τ) v where
  place_lt _ ha := absurd rfl ha
  shape _ ha := absurd rfl ha
  inj _ _ ha := absurd rfl ha
  settled s q hs := by simp [Ghost.start] at hs
  chained a ha := by simp [Ghost.start] at ha
  threaded a ha := by simp [Ghost.start] at ha
  nodup a ha := by simp [Ghost.start] at ha
  visited a ha := by simp [Ghost.start] at ha
  table := by
    rw [htable]
    refine (List.eq_replicate_iff.mpr ⟨by simp, fun e he => ?_⟩).symm
    obtain ⟨a, -, rfl⟩ := List.mem_map.mp he
    simp [Ghost.entry]

/-- What the invariant says depends on the view alone. -/
theorem Reading.congr (h : Reading shape ks c g v) (hget : v'.get = v.get) (hsize : v'.size = v.size)
    (hshape : v'.shape = v.shape) (htable : v'.table = v.table) : Reading shape ks c g v' := by
  obtain ⟨get, size, sh, table⟩ := v
  obtain ⟨get', size', sh', table'⟩ := v'
  subst hget hsize hshape htable
  exact h

/-! ## Stores -/

/-- The place `pp` is read for `q`. -/
def Ghost.own (g : Ghost ν τ) (pp : τ) (q : Option ν) : Ghost ν τ :=
  { g with owner := Function.update g.owner pp (some q) }

omit [DecidableEq ν] [DecidableEq τ] in
theorem owner_ne {q : Option ν} (hpp : g.owner pp = none) (hs : g.owner s = some q) : s ≠ pp := by
  rintro rfl
  simp [hpp] at hs

/-- **Storing** a null pointer, or a node that is complete or not. -/
theorem Reading.write (h : Reading shape ks c g v) (hc : ∀ b, c' b = 0 ↔ c b = 0)
    (hpp : g.owner pp = none) (hstored : Stored v v' pp w) (htable : v'.table = v.table)
    {q : Option ν} (hw : Settled c (g.own pp q) v' pp q) :
    Reading shape ks c' (g.own pp q) v' where
  place_lt a ha := hstored.size ▸ h.place_lt a ((hc a).not.mp ha)
  shape a ha := by
    rw [hstored.shape]
    exact h.shape a ((hc a).not.mp ha)
  inj a b ha hb := h.inj a b ((hc a).not.mp ha) ((hc b).not.mp hb)
  settled s q' hs := by
    by_cases hne : s = pp
    · subst hne
      have hq : q' = q := by simpa [Ghost.own, eq_comm] using hs
      subst hq
      exact hw.mono rfl (fun b hb => ⟨(hc b).not.mpr hb, rfl⟩) fun _ _ ho hm => ⟨ho, hm⟩
    · have hs' : g.owner s = some q' := by simpa [Ghost.own, hne] using hs
      exact (h.settled s q' hs').mono (hstored.frame s hne)
        (fun b hb => ⟨(hc b).not.mpr hb, rfl⟩) fun _ _ ho hm => ⟨ho, hm⟩
  chained a ha s hs := by
    have howner := h.chained a ha s hs
    simpa [Ghost.own, owner_ne hpp howner] using howner
  threaded a ha := (h.threaded a ha).congr fun s hs =>
    hstored.frame s (owner_ne hpp (h.chained a ha s hs))
  nodup := h.nodup
  visited a ha := (hc a).not.mpr (h.visited a ha)
  table := by
    rw [htable, h.table]
    exact List.map_congr_left fun b _ => (Ghost.entry_congr (hc b) Iff.rfl rfl rfl).symm

/-- The place `pp` joins the thread of `b`. -/
def Ghost.join (g : Ghost ν τ) (pp : τ) (b : ν) : Ghost ν τ :=
  { g.own pp (some b) with chain := Function.update g.chain b (pp :: g.chain b) }

/-- **Threading** a place that waits for a node under construction. -/
theorem Reading.thread (h : Reading shape ks c g v) (hnodup : ks.Nodup)
    (hc : ∀ b, c' b = 0 ↔ c b = 0) (hpp : g.owner pp = none) {b : ν} (hb : b ∈ g.opened)
    (hstored : Stored v v' pp (link (g.chain b)))
    (htable : v'.table = v.table.set (ks.idxOf b) (.slot pp, .refd)) :
    Reading shape ks c' (g.join pp b) v' where
  place_lt a ha := hstored.size ▸ h.place_lt a ((hc a).not.mp ha)
  shape a ha := by
    rw [hstored.shape]
    exact h.shape a ((hc a).not.mp ha)
  inj a a' ha ha' := h.inj a a' ((hc a).not.mp ha) ((hc a').not.mp ha')
  settled s q hs := by
    by_cases hne : s = pp
    · subst hne
      have hq : some b = q := by simpa [Ghost.join, Ghost.own] using hs
      subst hq
      exact ⟨(hc b).not.mpr (h.visited b hb), Or.inr ⟨hb, by simp [Ghost.join]⟩⟩
    · have hs' : g.owner s = some q := by simpa [Ghost.join, Ghost.own, hne] using hs
      refine (h.settled s q hs').mono (hstored.frame s hne)
        (fun a ha => ⟨(hc a).not.mpr ha, rfl⟩) fun a _ ho hm => ⟨ho, ?_⟩
      by_cases hab : a = b
      · subst hab
        simp [Ghost.join, hm]
      · simpa [Ghost.join, hab] using hm
  chained a ha s hs := by
    by_cases hne : s = pp
    · subst hne
      by_cases hab : a = b
      · subst hab
        simp [Ghost.join, Ghost.own]
      · have hmem : s ∈ g.chain a := by simpa [Ghost.join, hab] using hs
        exact absurd rfl (owner_ne hpp (h.chained a ha s hmem))
    · have hmem : s ∈ g.chain a := by
        by_cases hab : a = b
        · subst hab
          simpa [Ghost.join, hne] using hs
        · simpa [Ghost.join, hab] using hs
      simpa [Ghost.join, Ghost.own, hne] using h.chained a ha s hmem
  threaded a ha := by
    have hold : Threaded v' (g.chain a) := (h.threaded a ha).congr fun s hs =>
      hstored.frame s (owner_ne hpp (h.chained a ha s hs))
    by_cases hab : a = b
    · subst hab
      simpa [Ghost.join, Threaded] using ⟨hstored.self, hold⟩
    · simpa [Ghost.join, hab] using hold
  nodup a ha := by
    by_cases hab : a = b
    · subst hab
      have hnot : pp ∉ g.chain a := fun hmem => owner_ne hpp (h.chained a ha pp hmem) rfl
      simpa [Ghost.join, hnot] using h.nodup a ha
    · simpa [Ghost.join, hab] using h.nodup a ha
  visited a ha := (hc a).not.mpr (h.visited a ha)
  table := by
    have hcb : c' b ≠ 0 := (hc b).not.mpr (h.visited b hb)
    have hentry : (g.join pp b).entry c' b = (.slot pp, .refd) := by
      simp [Ghost.entry, Ghost.join, Ghost.own, hb, hcb, link]
    rw [htable, h.table, ← hentry]
    exact set_map_idxOf hnodup fun a _ hab =>
      Ghost.entry_congr (hc a) Iff.rfl (by simp [Ghost.join, hab]) rfl

/-! ## Definitions -/

/-- The node `a` is put at `n`, for the place `pp`, and opened if it will be referred to. -/
def Ghost.enter (g : Ghost ν τ) (ks : List ν) (a : ν) (n : ℕ) (pp : τ) : Ghost ν τ where
  place := Function.update g.place a n
  owner := Function.update g.owner pp (some (some a))
  opened := if ks.contains a then insert a g.opened else g.opened
  chain := Function.update g.chain a []

/-- **Entering** a new node. -/
theorem Reading.enter (h : Reading shape ks c g v) {a : ν} (hc : c a = 0)
    (hpp : g.owner pp = none) (hmade : Made v v' pp (shape a)) :
    Reading shape ks (bump c a) (g.enter ks a v.size pp) v' := by
  have hopen : ∀ {b}, b ∈ (g.enter ks a v.size pp).opened → b ≠ a → b ∈ g.opened := by
    intro b hb hba
    simp only [Ghost.enter] at hb
    split at hb
    · exact (Finset.mem_insert.mp hb).resolve_left hba
    · exact hb
  have hopen' : ∀ {b}, b ∈ g.opened → b ∈ (g.enter ks a v.size pp).opened := by
    intro b hb
    simp only [Ghost.enter]
    split
    · exact Finset.mem_insert_of_mem hb
    · exact hb
  have hold : ∀ {b}, c b ≠ 0 → b ≠ a := fun hb hba => hb (hba ▸ hc)
  have hchain : ∀ {b}, b ≠ a → (g.enter ks a v.size pp).chain b = g.chain b := by
    intro b hba
    simp [Ghost.enter, hba]
  have hplace : ∀ {b}, b ≠ a → (g.enter ks a v.size pp).place b = g.place b := by
    intro b hba
    simp [Ghost.enter, hba]
  have hnew : (g.enter ks a v.size pp).place a = v.size := by simp [Ghost.enter]
  have hframe : ∀ s q, g.owner s = some q → v'.get s = v.get s := fun s q hs =>
    hmade.frame s (h.valid hs) (owner_ne hpp hs)
  have hbump : ∀ {b}, b ≠ a → bump c a b ≠ 0 → c b ≠ 0 := fun hba hb => by simpa [hba] using hb
  refine ⟨fun b hb => ?_, fun b hb => ?_, fun b b' hb hb' heq => ?_, fun s q hs => ?_,
    fun b hb s hs => ?_, fun b hb => ?_, fun b hb => ?_, fun b hb => ?_, ?_⟩
  · rw [hmade.size]
    by_cases hba : b = a
    · rw [hba, hnew]
      exact Nat.lt_succ_self _
    · rw [hplace hba]
      exact Nat.lt_succ_of_lt (h.place_lt b (hbump hba hb))
  · by_cases hba : b = a
    · rw [hba, hnew, hmade.shape]
    · have hcb := hbump hba hb
      rw [hplace hba, hmade.older _ (h.place_lt b hcb), h.shape b hcb]
  · by_cases hba : b = a <;> by_cases hba' : b' = a
    · exact hba.trans hba'.symm
    · rw [hba, hnew, hplace hba'] at heq
      exact absurd heq (h.place_lt b' (hbump hba' hb')).ne'
    · rw [hba', hnew, hplace hba] at heq
      exact absurd heq (h.place_lt b (hbump hba hb)).ne
    · rw [hplace hba, hplace hba'] at heq
      exact h.inj b b' (hbump hba hb) (hbump hba' hb') heq
  · by_cases hne : s = pp
    · subst hne
      have hq : some a = q := by simpa [Ghost.enter] using hs
      subst hq
      exact ⟨by simp, Or.inl (by rw [hmade.self, hnew])⟩
    · have hs' : g.owner s = some q := by simpa [Ghost.enter, hne] using hs
      refine (h.settled s q hs').mono (hframe s q hs')
        (fun b hb => ⟨by simp [hold hb, hb], hplace (hold hb)⟩) fun b hb ho hm => ?_
      exact ⟨hopen' ho, by rwa [hchain (hold hb)]⟩
  · by_cases hba : b = a
    · subst hba
      simp [Ghost.enter] at hs
    · rw [hchain hba] at hs
      have howner := h.chained b (hopen hb hba) s hs
      simpa [Ghost.enter, owner_ne hpp howner] using howner
  · by_cases hba : b = a
    · subst hba
      simp [Ghost.enter, Threaded]
    · rw [hchain hba]
      exact (h.threaded b (hopen hb hba)).congr fun s hs =>
        hframe s _ (h.chained b (hopen hb hba) s hs)
  · by_cases hba : b = a
    · subst hba
      simp [Ghost.enter]
    · rw [hchain hba]
      exact h.nodup b (hopen hb hba)
  · by_cases hba : b = a
    · subst hba
      simp
    · simpa [hba] using h.visited b (hopen hb hba)
  · rw [hmade.table, h.table]
    refine List.map_congr_left fun b hb => ?_
    by_cases hba : b = a
    · subst hba
      simp [Ghost.entry, hc, Ghost.enter, hb, link]
    · exact (Ghost.entry_congr (by simp [hba]) ⟨fun ho => hopen ho hba, hopen'⟩
        (hchain hba) (hplace hba)).symm

/-- The definition of `a` is complete. -/
def Ghost.close (g : Ghost ν τ) (a : ν) : Ghost ν τ :=
  { g with opened := g.opened.erase a }

/-- **Completing** a definition. -/
theorem Reading.close (h : Reading shape ks c g v) (hnodup : ks.Nodup) {a : ν}
    (ha : a ∈ g.opened) (hpatched : Patched v v' (.obj (g.place a)) (g.chain a))
    (htable : v'.table = v.table.set (ks.idxOf a) (.obj (g.place a), .defd)) :
    Reading shape ks c (g.close a) v' := by
  have hopen : ∀ {b}, b ∈ (g.close a).opened → b ∈ g.opened ∧ b ≠ a := fun hb =>
    ⟨Finset.mem_of_mem_erase hb, Finset.ne_of_mem_erase hb⟩
  -- places read for another reference are not on the thread
  have hoff : ∀ {s q}, g.owner s = some q → q ≠ some a → v'.get s = v.get s := fun hs hq =>
    hpatched.frame _ fun hmem => hq (Option.some.inj (hs.symm.trans (h.chained a ha _ hmem)))
  refine ⟨fun b hb => ?_, fun b hb => ?_, h.inj, fun s q hs => ?_, fun b hb => ?_, fun b hb => ?_,
    fun b hb => h.nodup b (hopen hb).1, fun b hb => h.visited b (hopen hb).1, ?_⟩
  · rw [hpatched.size]
    exact h.place_lt b hb
  · rw [hpatched.shape]
    exact h.shape b hb
  · have hsettled := h.settled s q hs
    by_cases hq : q = some a
    · subst hq
      refine ⟨hsettled.1, Or.inl ?_⟩
      by_cases hmem : s ∈ g.chain a
      · exact hpatched.mem s hmem
      · exact (hpatched.frame s hmem).trans (hsettled.2.resolve_right fun hr => hmem hr.2)
    · refine hsettled.mono (hoff hs hq) (fun b hb => ⟨hb, rfl⟩) fun b _ ho hm => ⟨?_, hm⟩
      refine Finset.mem_erase.mpr ⟨?_, ho⟩
      rintro rfl
      exact hq (Option.some.inj (hs.symm.trans (h.chained b ho s hm)))
  · exact h.chained b (hopen hb).1
  · refine (h.threaded b (hopen hb).1).congr fun s hs => ?_
    exact hoff (h.chained b (hopen hb).1 s hs) fun heq => (hopen hb).2 (Option.some.inj heq)
  · have hca := h.visited a ha
    have hentry : (g.close a).entry c a = (.obj (g.place a), .defd) := by
      simp [Ghost.entry, Ghost.close, hca]
    rw [htable, h.table, ← hentry]
    refine set_map_idxOf hnodup fun b _ hba => ?_
    exact Ghost.entry_congr Iff.rfl (by simp [Ghost.close, hba]) rfl rfl

/-! ## What a read leaves behind -/

/-- Reading something into the places `A` adds to what was read before. -/
structure Extends (c : ν → ℕ) (g g' : Ghost ν τ) (v v' : View τ S) (A : Set τ) : Prop where
  place : ∀ a, c a ≠ 0 → g'.place a = g.place a
  keep : ∀ s q, g.owner s = some q → g'.owner s = some q
  fresh : ∀ s ∉ A, v.Valid s → g.owner s = none → g'.owner s = none
  valid : ∀ s, v.Valid s → v'.Valid s
  frame : ∀ s ∉ A, ∀ n, v.get s = some (.obj n) → v'.get s = some (.obj n)

namespace Extends

variable {A B : Set τ} {g1 : Ghost ν τ} {v1 : View τ S}

omit [DecidableEq ν] [DecidableEq τ] in
theorem refl (c : ν → ℕ) (g : Ghost ν τ) (v : View τ S) : Extends c g g v v ∅ :=
  ⟨fun _ _ => rfl, fun _ _ h => h, fun _ _ _ h => h, fun _ h => h, fun _ _ _ h => h⟩

omit [DecidableEq ν] in
/-- The place `pp` is stored to. -/
theorem store {q : Option ν} (hplace : ∀ a, c a ≠ 0 → g'.place a = g.place a)
    (howner : g'.owner = Function.update g.owner pp (some q)) (hpp : g.owner pp = none)
    (hself : v'.Valid pp) (hget : ∀ s, v.Valid s → s ≠ pp → v'.get s = v.get s) :
    Extends c g g' v v' {pp} where
  place := hplace
  keep s q' hs := by rw [howner, Function.update_of_ne (owner_ne hpp hs), hs]
  fresh s hne _ hs := by rw [howner, Function.update_of_ne hne, hs]
  valid s hs := by
    by_cases hne : s = pp
    · exact hne ▸ hself
    · rwa [View.Valid, hget s hs hne]
  frame s hne n hs := (hget s (.of_get hs) hne).trans hs

omit [DecidableEq ν] [DecidableEq τ] in
theorem trans (h : Extends c g g1 v v1 A) (h' : Extends c' g1 g' v1 v' B)
    (hc : ∀ a, c a ≠ 0 → c' a ≠ 0) : Extends c g g' v v' (A ∪ B) where
  place a ha := (h'.place a (hc a ha)).trans (h.place a ha)
  keep s q hs := h'.keep s q (h.keep s q hs)
  fresh s hs hvalid hnone := by
    rw [Set.mem_union, not_or] at hs
    exact h'.fresh s hs.2 (h.valid s hvalid) (h.fresh s hs.1 hvalid hnone)
  valid s hs := h'.valid s (h.valid s hs)
  frame s hs n hget := by
    rw [Set.mem_union, not_or] at hs
    exact h'.frame s hs.2 n (h.frame s hs.1 n hget)

omit [DecidableEq ν] [DecidableEq τ] in
/-- Places that were not there do not count. -/
theorem forget (h : Extends c g g' v v' B) (hsub : ∀ s ∈ B, v.Valid s → s ∈ A) :
    Extends c g g' v v' A where
  place := h.place
  keep := h.keep
  fresh s hs hvalid := h.fresh s (fun hB => hs (hsub s hB hvalid)) hvalid
  valid := h.valid
  frame s hs n hget := h.frame s (fun hB => hs (hsub s hB (.of_get hget))) n hget

end Extends

section

variable (children : ν → List (Option ν)) (slot : ℕ → ℕ → τ)

/-- All fields of the nodes entered between two counters have been read. -/
def Full (c c' : ν → ℕ) (g : Ghost ν τ) : Prop :=
  ∀ a, c a = 0 → c' a ≠ 0 → ∀ (i : ℕ) (q : Option ν), (children a)[i]? = some q →
    g.owner (slot (g.place a) i) = some q

/-- The result of reading a reference `p` into `pp`. -/
structure Result (shape : ν → S) (ks : List ν) (c c' : ν → ℕ) (p : Option ν) (g g' : Ghost ν τ)
    (v v' : View τ S) (pp : τ) : Prop where
  reading : Reading shape ks c' g' v'
  ext : Extends c g g' v v' {pp}
  mine : g'.owner pp = some p
  full : Full children slot c c' g'
  opened : g'.opened = g.opened

/-- The result of reading references into places, one after the other. -/
structure Results (shape : ν → S) (ks : List ν) (c c' : ν → ℕ) (ps : List (Option ν))
    (g g' : Ghost ν τ) (v v' : View τ S) (pps : List τ) : Prop where
  reading : Reading shape ks c' g' v'
  ext : Extends c g g' v v' {s | s ∈ pps}
  mine : List.Forall₂ (fun s q => g'.owner s = some q) pps ps
  full : Full children slot c c' g'
  opened : g'.opened = g.opened

/-- The result of reading a node, which stays open if it will be referred to. -/
structure NodeResult (shape : ν → S) (ks : List ν) (c c' : ν → ℕ) (a : ν) (g g' : Ghost ν τ)
    (v v' : View τ S) (pp : τ) : Prop where
  reading : Reading shape ks c' g' v'
  ext : Extends c g g' v v' {pp}
  mine : g'.owner pp = some (some a)
  full : Full children slot c c' g'
  opened : g'.opened = if ks.contains a then insert a g.opened else g.opened
  get : v'.get pp = some (.obj (g'.place a))

end

variable {children : ν → List (Option ν)} {slot : ℕ → ℕ → τ} {g1 : Ghost ν τ} {v1 : View τ S}
  {c1 : ν → ℕ} {p : Option ν} {ps : List (Option ν)} {pps : List τ} {a : ν}

omit [DecidableEq ν] [DecidableEq τ] in
theorem full_of_iff (hc : ∀ b, c' b = 0 ↔ c b = 0) : Full children slot c c' g :=
  fun b hb hb' => absurd ((hc b).mpr hb) hb'

omit [DecidableEq ν] [DecidableEq τ] in
theorem Full.trans (h : Full children slot c c1 g1) (h' : Full children slot c1 c' g')
    {A : Set τ} (hext : Extends c1 g1 g' v1 v' A) : Full children slot c c' g' := by
  intro a ha ha' i q hq
  by_cases h1 : c1 a = 0
  · exact h' a h1 ha' i q hq
  · rw [hext.place a h1]
    exact hext.keep _ _ (h a ha h1 i q hq)

theorem Results.nil (h : Reading shape ks c g v) :
    Results children slot shape ks c c [] g g v v [] :=
  ⟨h, (Extends.refl c g v).forget fun _ hs => absurd hs (Set.notMem_empty _), .nil,
    full_of_iff fun _ => Iff.rfl, rfl⟩

theorem Results.cons (h : Result children slot shape ks c c1 p g g1 v v1 pp)
    (h' : Results children slot shape ks c1 c' ps g1 g' v1 v' pps) (hc : ∀ a, c a ≠ 0 → c1 a ≠ 0) :
    Results children slot shape ks c c' (p :: ps) g g' v v' (pp :: pps) where
  reading := h'.reading
  ext := (h.ext.trans h'.ext hc).forget fun s hs _ => by
    rcases hs with hs | hs
    · exact List.mem_cons.mpr (Or.inl hs)
    · exact List.mem_cons_of_mem _ hs
  mine := .cons (h'.ext.keep _ _ h.mine) h'.mine
  full := h.full.trans h'.full h'.ext
  opened := h'.opened.trans h.opened

/-- **A node and its fields**, which are at places that were not there before. -/
theorem Results.node (hc : c a = 0) (hvalid : v.Valid pp) (hpp : g.owner pp = none)
    (hmade : Made v v1 pp (shape a)) (hnew : ∀ i, ¬ v.Valid (slot v.size i))
    (h : Results children slot shape ks (bump c a) c' (children a) (g.enter ks a v.size pp) g'
      v1 v' ((List.range (children a).length).map (slot v.size))) :
    NodeResult children slot shape ks c c' a g g' v v' pp := by
  have hpos : ∀ b, c b ≠ 0 → bump c a b ≠ 0 := fun b hb =>
    (Nat.lt_of_lt_of_le (Nat.pos_of_ne_zero hb) (le_bump c a b)).ne'
  have hext1 : Extends c g (g.enter ks a v.size pp) v v1 {pp} := by
    refine .store (fun b hb => ?_) rfl hpp (.of_get hmade.self) hmade.frame
    have hba : b ≠ a := fun hba => hb (hba ▸ hc)
    simp [Ghost.enter, hba]
  have hfield : ∀ s ∈ (List.range (children a).length).map (slot v.size), ¬ v.Valid s := by
    intro s hs
    obtain ⟨i, -, rfl⟩ := List.mem_map.mp hs
    exact hnew i
  have hplace : g'.place a = v.size := by
    rw [h.ext.place a (by simp)]
    simp [Ghost.enter]
  refine ⟨h.reading, (hext1.trans h.ext hpos).forget ?_, ?_, ?_, h.opened, ?_⟩
  · rintro s (hs | hs) hvalid
    · exact hs
    · exact absurd hvalid (hfield s hs)
  · exact h.ext.keep _ _ (by simp [Ghost.enter])
  · intro b hb hb' i q hq
    by_cases hba : b = a
    · subst hba
      rw [hplace]
      obtain ⟨hlen, hmine⟩ := List.forall₂_iff_get.mp h.mine
      obtain ⟨hi, hget⟩ := List.getElem?_eq_some_iff.mp hq
      have howner := hmine i (by simpa using hi) hi
      simpa [hget] using howner
    · exact h.full b (by simpa [hba] using hb) hb' i q hq
  · rw [hplace]
    exact h.ext.frame pp (fun hs => hfield pp hs hvalid) _ hmade.self

/-- A node that is never referred to again. -/
theorem NodeResult.result (h : NodeResult children slot shape ks c c' a g g' v v' pp)
    (ha : a ∉ ks) : Result children slot shape ks c c' (some a) g g' v v' pp :=
  ⟨h.reading, h.ext, h.mine, h.full, by simp [h.opened, ha]⟩

/-- **The definition of a node** closes it, and patches its thread. -/
theorem NodeResult.close (h : NodeResult children slot shape ks c c' a g g1 v v1 pp)
    (hreading : Reading shape ks c g v) (hnodup : ks.Nodup) (hc : c a = 0) (ha : a ∈ ks)
    (hpatched : Patched v1 v' (.obj (g1.place a)) (g1.chain a))
    (htable : v'.table = v1.table.set (ks.idxOf a) (.obj (g1.place a), .defd)) :
    Result children slot shape ks c c' (some a) g (g1.close a) v v' pp := by
  have hmem : a ∈ g1.opened := by
    simp [h.opened, ha]
  have hthread := h.reading.threaded a hmem
  refine ⟨h.reading.close hnodup hmem hpatched htable, ⟨h.ext.place, h.ext.keep, h.ext.fresh,
    fun s hs => ?_, fun s hs n hget => ?_⟩, h.mine, h.full, ?_⟩
  · by_cases hs' : s ∈ g1.chain a
    · exact .of_get (hpatched.mem s hs')
    · rw [View.Valid, hpatched.frame s hs']
      exact h.ext.valid s hs
  · have hs1 := h.ext.frame s hs n hget
    exact (hpatched.frame s fun hmem' => hthread.get_ne hmem' _ hs1).trans hs1
  · have hnot : a ∉ g.opened := fun hmem' => hreading.visited a hmem' hc
    simp [Ghost.close, h.opened, ha, hnot]

/-- A null pointer is read. -/
theorem result_null (h : Reading shape ks c g v) (hpp : g.owner pp = none)
    (hstored : Stored v v' pp .null) (htable : v'.table = v.table) :
    Result children slot shape ks c c none g (g.own pp none) v v' pp :=
  ⟨h.write (fun _ => Iff.rfl) hpp hstored htable hstored.self,
    .store (fun _ _ => rfl) rfl hpp (.of_get hstored.self) fun s _ hne => hstored.frame s hne,
    by simp [Ghost.own], full_of_iff fun _ => Iff.rfl, rfl⟩

/-- A reference is read to a node that is complete. -/
theorem result_known (h : Reading shape ks c g v) (hpp : g.owner pp = none) (hc : c a ≠ 0)
    (hstored : Stored v v' pp (.obj (g.place a))) (htable : v'.table = v.table) :
    Result children slot shape ks c (bump c a) (some a) g (g.own pp (some a)) v v' pp := by
  have hiff : ∀ b, bump c a b = 0 ↔ c b = 0 := by
    intro b
    by_cases hba : b = a
    · simp [hba, hc]
    · simp [hba]
  exact ⟨h.write hiff hpp hstored htable ⟨hc, Or.inl hstored.self⟩,
    .store (fun _ _ => rfl) rfl hpp (.of_get hstored.self) fun s _ hne => hstored.frame s hne,
    by simp [Ghost.own], full_of_iff hiff, rfl⟩

/-- A reference is read to a node that is open. -/
theorem result_open (h : Reading shape ks c g v) (hnodup : ks.Nodup) (hpp : g.owner pp = none)
    (ha : a ∈ g.opened) (hstored : Stored v v' pp (link (g.chain a)))
    (htable : v'.table = v.table.set (ks.idxOf a) (.slot pp, .refd)) :
    Result children slot shape ks c (bump c a) (some a) g (g.join pp a) v v' pp := by
  have hiff : ∀ b, bump c a b = 0 ↔ c b = 0 := by
    intro b
    by_cases hba : b = a
    · simp [hba, h.visited a ha]
    · simp [hba]
  exact ⟨h.thread hnodup hiff hpp ha hstored htable,
    .store (fun _ _ => rfl) rfl hpp (.of_get hstored.self) fun s _ hne => hstored.frame s hne,
    by simp [Ghost.join, Ghost.own], full_of_iff hiff, rfl⟩

/-- **The words that were read**, when no definition is open. -/
theorem Reading.get_eq (h : Reading shape ks c g v) (hopened : g.opened = ∅) {q : Option ν}
    (hs : g.owner s = some q) : v.get s = some (.ofRef (q.map g.place)) := by
  have hsettled := h.settled s q hs
  cases q with
  | none => exact hsettled
  | some b => exact hsettled.2.resolve_right fun hr => by simp [hopened] at hr

end Lush.Backpatch
