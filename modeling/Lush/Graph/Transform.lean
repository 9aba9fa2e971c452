import Lush.Graph.Graph

/-!
# Transforming and composing graphs

`g-transform` and `g-compose` build a new graph from the links of one graph, or from the pairs of
links of two, that a transformer accepts.  Both do the same (`buildSub`): a depth-first search from
the start, which gives a node a counterpart in the new graph only once it knows that the end can be
reached from it.  A node that the search comes back to while it is there is taken to be such a
node, and one that leads nowhere is marked.

`Frame` is what the two differ in: the nodes, the links out of a node that are accepted, and what is
built for a link.
-/

namespace Lush.Graph

variable {κ δ ν ε : Type} [DecidableEq ν]

/-- The nodes and links that are searched, and what is built for a link. -/
structure Frame (κ δ ν ε : Type) where
  out : ν → List ε
  dst : ε → ν
  cost : ε → κ
  label : ε → ℤ
  meaning : ε → ℤ
  data : ε → δ

/-- An element of `nnodf`: 0, 1 or 2. -/
inductive Flag
  | unknown
  | dead
  | pending
deriving DecidableEq

/-- The graph that is built, `nnodm` and `nnodf`. -/
structure Build (κ δ ν : Type) where
  ngraph : GGraph κ δ
  nnodm : ν → Option ℕ
  nnodf : ν → Flag

namespace Build

/-- The node tables are initialized. -/
def init (start stop : ν) : Build κ δ ν where
  ngraph := GGraph.new
  nnodm := Function.update (Function.update (fun _ => none) start (some GGraph.startnode)) stop
    (some GGraph.endnode)
  nnodf := fun _ => .unknown

variable (s : Build κ δ ν)

def setFlag (v : ν) (flag : Flag) : Build κ δ ν :=
  { s with nnodf := Function.update s.nnodf v flag }

/-- The counterpart of a node, which is created if it has none. -/
def counterpart (v : ν) : ℕ × Build κ δ ν :=
  match s.nnodm v with
  | some n => (n, s)
  | none =>
      let (n, ngraph) := s.ngraph.newnode
      (n, { s with ngraph, nnodm := Function.update s.nnodm v (some n) })

end Build

variable (F : Frame κ δ ν ε)

section

variable (visit : ν → Build κ δ ν → Except Fault (Bool × Build κ δ ν))

/-- Looking at the node a link leads to: its counterpart, if it is worth creating. -/
def explore (tnode : ν) (s : Build κ δ ν) : Except Fault (Option ℕ × Build κ δ ν) :=
  if s.nnodf tnode = .pending then
    -- a cycle is detected
    let (gnd, s) := s.counterpart tnode
    .ok (some gnd, s.setFlag tnode .unknown)
  else
    match s.nnodm tnode with
    | some gnd => .ok (some gnd, s)
    | none =>
        if s.nnodf tnode = .unknown then do
          let (reachable, s) ← visit tnode (s.setFlag tnode .pending)
          if reachable then
            let s := s.setFlag tnode .unknown
            .ok (s.nnodm tnode, s)
          else .ok (none, s.setFlag tnode .dead)
        else .ok (none, s)

/-- The loop over the links of a node that are accepted. -/
def buildLoop (node : ν) : List ε → Bool → Build κ δ ν → Except Fault (Bool × Build κ δ ν)
  | [], reachable, s => .ok (reachable, s)
  | e :: rest, reachable, s => do
      let (gnd, s) ← explore visit (F.dst e) s
      match gnd with
      | none => buildLoop node rest reachable s
      | some gnd =>
          let (gnu, s) := s.counterpart node
          let ngraph ← s.ngraph.linkm gnu gnd (F.cost e) (F.label e) (F.meaning e) (F.data e)
          buildLoop node rest true { s with ngraph }

end

/-- `g-transform-sub` and `g-compose-sub`, with a bound on the depth of the recursion. -/
def buildSub : ℕ → ν → Build κ δ ν → Except Fault (Bool × Build κ δ ν)
  | 0, _, _ => .error .depth
  | fuel + 1, node, s => buildLoop F (buildSub fuel) node (F.out node) false s

/-- The new graph, for the counterparts of the start and of the end. -/
def buildGraph (fuel : ℕ) (start stop : ν) : Except Fault (GGraph κ δ) := do
  let (_, s) ← buildSub F fuel start (Build.init start stop)
  .ok s.ngraph

/-! ## One graph -/

variable [Add κ]

/-- The frame of `g-transform` with the method `build` of `GTrans`. -/
def transformFrame (graph : GGraph κ δ) (check : GLink κ δ → GLink κ δ → Bool) :
    Frame κ δ ℕ (GLink κ δ) where
  out node := (graph.downlink node).filter fun link => check link link
  dst link := link.downnode
  cost link := link.cost + link.cost
  label link := link.label
  meaning link := link.meaning
  data link := link.data

/-- `g-transform`. -/
def gTransform (graph : GGraph κ δ) (check : GLink κ δ → GLink κ δ → Bool) :
    Except Fault (GGraph κ δ) :=
  buildGraph (transformFrame graph check) (graph.nnodes + 1) GGraph.startnode GGraph.endnode

/-! ## Two graphs -/

/-- The frame of `g-compose` with the method `build` of `GTrans`. -/
def composeFrame (graph1 graph2 : GGraph κ δ) (check : GLink κ δ → GLink κ δ → Bool) :
    Frame κ δ (ℕ × ℕ) (GLink κ δ × GLink κ δ) where
  out node :=
    (graph1.downlink node.1).flatMap fun link1 =>
      ((graph2.downlink node.2).filter fun link2 => check link1 link2).map fun link2 =>
        (link1, link2)
  dst link := (link.1.downnode, link.2.downnode)
  cost link := link.1.cost + link.2.cost
  label link := link.2.label
  meaning link := link.2.meaning
  data link := link.1.data

/-- `g-compose`. -/
def gCompose (graph1 graph2 : GGraph κ δ) (check : GLink κ δ → GLink κ δ → Bool) :
    Except Fault (GGraph κ δ) :=
  buildGraph (composeFrame graph1 graph2 check) (graph1.nnodes * graph2.nnodes + 1)
    (GGraph.startnode, GGraph.startnode) (GGraph.endnode, GGraph.endnode)

end Lush.Graph
