import Lush.Basic
import Lush.Library.Walks

/-!
# Graphs

`GGraph` of `graph.lsh`.  The bags of a node keep its links with the newest first.  No link starts
on the terminal node.  A link is known by the number of links that were there before it.

Costs are exact numbers, and the data slots of links are of any type; those of nodes are left out.
-/

namespace Lush.Graph

variable {κ δ : Type}

/-- `GLink`. -/
structure GLink (κ δ : Type) where
  id : ℕ
  upnode : ℕ
  downnode : ℕ
  cost : κ
  label : ℤ
  meaning : ℤ
  data : δ
deriving DecidableEq

/-- The fields that are copied. -/
structure GLink.Copies (l l' : GLink κ δ) : Prop where
  cost : l'.cost = l.cost
  label : l'.label = l.label
  meaning : l'.meaning = l.meaning
  data : l'.data = l.data

/-- `GGraph`: the number of its nodes, and its links with the newest first. -/
structure GGraph (κ δ : Type) where
  nnodes : ℕ
  nlinks : ℕ
  links : List (GLink κ δ)
  two_le : 2 ≤ nnodes
  ids : ∀ l ∈ links, l.id < nlinks
  sorted : (links.map GLink.id).Nodup
  bounds : ∀ l ∈ links, l.upnode < nnodes ∧ l.downnode < nnodes
  terminal : ∀ l ∈ links, l.upnode ≠ 1

namespace GGraph

/-- `:graph:startnode`. -/
def startnode : ℕ := 0

/-- `:graph:endnode`. -/
def endnode : ℕ := 1

/-- `(new GGraph)`. -/
def new : GGraph κ δ where
  nnodes := 2
  nlinks := 0
  links := []
  two_le := le_rfl
  ids := by simp
  sorted := List.nodup_nil
  bounds := by simp
  terminal := by simp

variable (g : GGraph κ δ)

/-- `newnode`. -/
def newnode : ℕ × GGraph κ δ :=
  (g.nnodes,
    { g with
      nnodes := g.nnodes + 1
      two_le := g.two_le.trans (Nat.le_succ _)
      bounds := fun l hl => ⟨(g.bounds l hl).1.trans (Nat.lt_succ_self _),
        (g.bounds l hl).2.trans (Nat.lt_succ_self _)⟩ })

/-- `linkm`, between two nodes of the graph. -/
def linkm (node1 node2 : ℕ) (cost : κ) (label meaning : ℤ) (data : δ) :
    Except Fault (GGraph κ δ) :=
  if hend : node1 = endnode then
    .error (.error "link: cannot start a link on the terminal node")
  else if hbounds : node1 < g.nnodes ∧ node2 < g.nnodes then
    .ok
      { g with
        nlinks := g.nlinks + 1
        links := ⟨g.nlinks, node1, node2, cost, label, meaning, data⟩ :: g.links
        ids := by
          rintro l (_ | ⟨_, hl⟩)
          · exact Nat.lt_succ_self _
          · exact (g.ids l hl).trans (Nat.lt_succ_self _)
        sorted := by
          rw [List.map_cons, List.nodup_cons]
          refine ⟨fun hmem => ?_, g.sorted⟩
          obtain ⟨l, hl, heq⟩ := List.mem_map.mp hmem
          exact absurd heq (g.ids l hl).ne
        bounds := by
          rintro l (_ | ⟨_, hl⟩)
          · exact hbounds
          · exact g.bounds l hl
        terminal := by
          rintro l (_ | ⟨_, hl⟩)
          · exact hend
          · exact g.terminal l hl }
  else .error .undefined

/-- `:node:downlink`. -/
def downlink (node : ℕ) : List (GLink κ δ) := g.links.filter (·.upnode = node)

/-- `:node:uplink`. -/
def uplink (node : ℕ) : List (GLink κ δ) := g.links.filter (·.downnode = node)

/-- A path between two nodes. -/
def Path (a : ℕ) (p : List (GLink κ δ)) (b : ℕ) : Prop :=
  Walks.Walk g.downlink GLink.downnode a p b

/-- The paths from the start to the end. -/
def Paths : Set (List (GLink κ δ)) := {p | g.Path startnode p endnode}

/-- No path comes back to where it started. -/
def Acyclic : Prop := Walks.Acyclic g.downlink GLink.downnode

variable {g} {l l' : GLink κ δ} {a b : ℕ} {p : List (GLink κ δ)}

@[simp] theorem path_nil : g.Path a [] b ↔ a = b := Iff.rfl

@[simp] theorem path_cons :
    g.Path a (l :: p) b ↔ l ∈ g.downlink a ∧ g.Path l.downnode p b := Iff.rfl

theorem mem_downlink : l ∈ g.downlink a ↔ l ∈ g.links ∧ l.upnode = a := by
  simp [downlink]

theorem mem_uplink : l ∈ g.uplink a ↔ l ∈ g.links ∧ l.downnode = a := by
  simp [uplink]

theorem Path.mem_links (hp : g.Path a p b) (hl : l ∈ p) : l ∈ g.links := by
  induction p generalizing a with
  | nil => cases hl
  | cons l' p ih =>
      rcases hl with _ | ⟨_, hl⟩
      · exact (mem_downlink.mp hp.1).1
      · exact ih hp.2 hl

/-- Links that climb form no cycle. -/
theorem acyclic_of_rank (rank : ℕ → ℕ) (h : ∀ l ∈ g.links, rank l.upnode < rank l.downnode) :
    g.Acyclic := by
  refine Walks.Acyclic.of_rank rank fun v l hl => ?_
  obtain ⟨hmem, rfl⟩ := mem_downlink.mp hl
  exact h l hmem

theorem links_nodup : g.links.Nodup := g.sorted.of_map _

theorem eq_of_id (hl : l ∈ g.links) (hl' : l' ∈ g.links) (h : l.id = l'.id) : l = l' :=
  List.inj_on_of_nodup_map g.sorted hl hl' h

theorem downlink_endnode : g.downlink endnode = [] := by
  rw [List.eq_nil_iff_forall_not_mem]
  intro l hl
  obtain ⟨hmem, hup⟩ := mem_downlink.mp hl
  exact g.terminal l hmem hup

/-- What `linkm` does when the link is allowed. -/
theorem linkm_ok (cost : κ) (label meaning : ℤ) (data : δ) {node1 node2 : ℕ}
    (hend : node1 ≠ endnode) (h1 : node1 < g.nnodes) (h2 : node2 < g.nnodes) :
    ∃ g', g.linkm node1 node2 cost label meaning data = .ok g' ∧ g'.nnodes = g.nnodes ∧
      g'.nlinks = g.nlinks + 1 ∧
      g'.links = ⟨g.nlinks, node1, node2, cost, label, meaning, data⟩ :: g.links := by
  unfold linkm
  rw [dif_neg hend, dif_pos ⟨h1, h2⟩]
  exact ⟨_, rfl, rfl, rfl, rfl⟩

end GGraph

end Lush.Graph
