import Lush.Graph.Copy

/-!
# Removing null transitions

`gram-cleanup` of `grammar.lsh`.  The boundary of a node is the set of the nodes that null
transitions lead to and that have other links, with the end if they lead there.  Nodes with the same
boundary become one node, whose links are those of the nodes in the boundary.
-/

namespace Lush.Graph

variable {κ δ : Type}

/-- `LAB-NULL`. -/
def labNull : ℤ := -1

/-! ## `GMultiIntSet` -/

/-- `add`, for one of the sets: its elements are in increasing order. -/
def setAdd : List ℕ → ℕ → List ℕ
  | [], id => [id]
  | data :: rest, id =>
      if data < id then data :: setAdd rest id
      else if data = id then data :: rest
      else id :: data :: rest

/-- The elements that go before the rest of the first set, from an element of it on. -/
def unionFrom (data1 : ℕ) (p1 : List ℕ) (union : List ℕ → List ℕ) : List ℕ → List ℕ
  | [] => data1 :: p1
  | data2 :: p2 =>
      if data1 < data2 then data1 :: union (data2 :: p2)
      else if data1 = data2 then unionFrom data1 p1 union p2
      else data2 :: unionFrom data1 p1 union p2

/-- `union`, for two of the sets. -/
def setUnion : List ℕ → List ℕ → List ℕ
  | [], p2 => p2
  | data1 :: p1, p2 => unionFrom data1 p1 (setUnion p1) p2

/-- `check`, for one of the sets. -/
def setCheck : List ℕ → ℕ → Bool
  | [], _ => false
  | data :: rest, id => if data < id then setCheck rest id else data = id

/-- `compare`, for two of the sets. -/
def setCompare : List ℕ → List ℕ → Bool
  | data1 :: p1, data2 :: p2 => if data1 = data2 then setCompare p1 p2 else false
  | [], [] => true
  | _, _ => false

/-! ## Boundaries -/

/-- `bstatus`, whether it is 1, and `miset`. -/
structure Boundaries where
  bstatus : ℕ → Bool
  miset : ℕ → List ℕ

/-- `(==> miset union ..)`. -/
def Boundaries.union (s : Boundaries) (nset1 nset2 : ℕ) : Boundaries :=
  { s with miset := Function.update s.miset nset1 (setUnion (s.miset nset1) (s.miset nset2)) }

/-- `(==> miset add ..)`. -/
def Boundaries.add (s : Boundaries) (nset id : ℕ) : Boundaries :=
  { s with miset := Function.update s.miset nset (setAdd (s.miset nset) id) }

/-- The loop over the links of a node; `ok` says whether one has a label. -/
def boundaryLoop (visit : ℕ → Boundaries → Except Fault Boundaries) (node : ℕ) :
    List (GLink κ δ) → Bool → Boundaries → Except Fault Boundaries
  | [], ok, s => .ok (if ok then s.add node node else s)
  | link :: rest, ok, s =>
      if link.label ≠ labNull then boundaryLoop visit node rest true s
      else do
        let s ← visit link.downnode s
        boundaryLoop visit node rest ok (s.union node link.downnode)

/-- `gram-cleanup-boundary`, with a bound on the depth of the recursion. -/
def gramCleanupBoundary (graph : GGraph κ δ) : ℕ → ℕ → Boundaries → Except Fault Boundaries
  | 0, _, _ => .error .depth
  | fuel + 1, node, s =>
      if s.bstatus node then .ok s
      else boundaryLoop (gramCleanupBoundary graph fuel) node (graph.downlink node) false
        { s with bstatus := Function.update s.bstatus node true }

/-- The e-boundary table: nodes are gone through from the newest on. -/
def boundaryTable (graph : GGraph κ δ) : Except Fault Boundaries :=
  (List.range graph.nnodes).reverse.foldlM
    (fun s node => gramCleanupBoundary graph (graph.nnodes + 1) node s)
    (Boundaries.add ⟨fun _ => false, fun _ => []⟩ GGraph.endnode GGraph.endnode)

/-! ## The new graph -/

/-- Identifying common boundary sets: `bstatus` and `nk` after the nodes before `n`. -/
def identify (miset : ℕ → List ℕ) : ℕ → (ℕ → ℕ) × ℕ
  | 0 => (fun _ => 0, 0)
  | i + 1 =>
      let (bstatus, nk) := identify miset i
      match (List.range i).find? fun j => setCompare (miset i) (miset j) with
      | some j => (Function.update bstatus i (bstatus j), nk)
      | none => (Function.update bstatus i nk, nk + 1)

/-- The nodes of the new graph for the first `n` sets, of which `kstart` is that of the start and
`kend` that of the end. -/
def createNodes (kstart kend : ℕ) : ℕ → GGraph κ δ × (ℕ → ℕ)
  | 0 => (GGraph.new, fun _ => 0)
  | k + 1 =>
      let (ngraph, nnodes) := createNodes kstart kend k
      if k = kstart then (ngraph, Function.update nnodes k GGraph.startnode)
      else if k = kend then (ngraph, Function.update nnodes k GGraph.endnode)
      else
        let (node, ngraph) := ngraph.newnode
        (ngraph, Function.update nnodes k node)

/-- The nodes that are the first with their set. -/
def firsts (bstatus : ℕ → ℕ) : List ℕ → ℤ → List ℕ
  | [], _ => []
  | i :: rest, k =>
      if (bstatus i : ℤ) > k then i :: firsts bstatus rest (bstatus i) else firsts bstatus rest k

/-- A link of a boundary node becomes a link of the new node, and another one to the end if the
end is in the boundary it leads to. -/
def boundaryLink (miset : ℕ → List ℕ) (bstatus nnodes : ℕ → ℕ) (nnode : ℕ) (ngraph : GGraph κ δ)
    (link : GLink κ δ) : Except Fault (GGraph κ δ) :=
  if link.label ≠ labNull then do
    let downk := bstatus link.downnode
    let ngraph ← ngraph.linkm nnode (nnodes downk) link.cost link.label link.meaning link.data
    if setCheck (miset link.downnode) GGraph.endnode ∧ downk ≠ bstatus GGraph.endnode then
      ngraph.linkm nnode GGraph.endnode link.cost link.label link.meaning link.data
    else .ok ngraph
  else .ok ngraph

/-- The links of the new graph. -/
def createLinks (graph : GGraph κ δ) (miset : ℕ → List ℕ) (bstatus nnodes : ℕ → ℕ)
    (ngraph : GGraph κ δ) : Except Fault (GGraph κ δ) :=
  (firsts bstatus (List.range graph.nnodes) (-1)).foldlM
    (fun ngraph i => (miset i).foldlM
      (fun ngraph m => (graph.downlink m).foldlM
        (boundaryLink miset bstatus nnodes (nnodes (bstatus i))) ngraph) ngraph) ngraph

/-- The error of a grammar that matches nothing at all. -/
def nullPath : Fault := .error "This grammar allows a null path between start and end nodes"

/-- `gram-cleanup-horse`. -/
def gramCleanupHorse (graph : GGraph κ δ) : Except Fault (GGraph κ δ) := do
  let s ← boundaryTable graph
  if setCheck (s.miset GGraph.startnode) GGraph.endnode then .error nullPath
  else do
    let (bstatus, nk) := identify s.miset graph.nnodes
    let (ngraph, nnodes) :=
      createNodes (bstatus GGraph.startnode) (bstatus GGraph.endnode) nk
    let ngraph ← createLinks graph s.miset bstatus nnodes ngraph
    -- copying removes nodes and links that are not needed
    gCopy ngraph GGraph.new GGraph.startnode GGraph.endnode

/-- `gram-cleanup`. -/
def gramCleanup (graph : GGraph κ δ) : Except Fault (GGraph κ δ) :=
  if ∀ link ∈ graph.links, link.label ≠ labNull then .ok graph else gramCleanupHorse graph

end Lush.Graph
