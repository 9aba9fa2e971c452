import Lush.Graph.Transform

/-!
# Viterbi

`g-viterbi` and `g-compose-viterbi` of `gsearch.lsh`, over exact costs.  1e38 stands for a node that
cannot be reached: it is the top element that costs are extended with, and stays what it is when a
cost is added to it.

Both look upwards from the end (`viterbiSub`), once at every node, with the start and the end marked
before; they keep the cheapest way to come to a node, and the link or the pair of links it comes
along.  The new graph is built by going back along these (`retrace`).  `Lattice` is what the two
differ in.
-/

namespace Lush.Graph

variable {κ δ ν ε : Type}

/-- A frame that can be searched upwards, and the cost of coming along an edge from a node. -/
structure Lattice (κ δ ν ε : Type) extends Frame κ δ ν ε where
  into : ν → List ε
  src : ε → ν
  upcost : WithTop κ → ε → WithTop κ

/-- The tables `ndflag` and `path`, and the slots `acost` of the nodes or the table `ndacost`. -/
structure Pass (κ ν ε : Type) where
  ndflag : ν → Bool
  acost : ν → WithTop κ
  path : ν → Option ε

variable [DecidableEq ν]

def Pass.mark (s : Pass κ ν ε) (v : ν) : Pass κ ν ε :=
  { s with ndflag := Function.update s.ndflag v true }

def Pass.store (s : Pass κ ν ε) (v : ν) (mincost : WithTop κ) (minlink : Option ε) :
    Pass κ ν ε :=
  { s with
    acost := Function.update s.acost v mincost
    path := Function.update s.path v minlink }

/-- Looking at a node the first time that it is come to. -/
def look (visit : ν → Pass κ ν ε → Except Fault (Pass κ ν ε)) (upnode : ν) (s : Pass κ ν ε) :
    Except Fault (Pass κ ν ε) :=
  if s.ndflag upnode then .ok s else visit upnode (s.mark upnode)

variable [LinearOrder κ] (L : Lattice κ δ ν ε)

/-- The loop over the edges that lead to a node. -/
def viterbiLoop (visit : ν → Pass κ ν ε → Except Fault (Pass κ ν ε)) (node : ν) :
    List ε → WithTop κ → Option ε → Pass κ ν ε → Except Fault (Pass κ ν ε)
  | [], mincost, minlink, s => .ok (s.store node mincost minlink)
  | link :: rest, mincost, minlink, s => do
      let upnode := L.src link
      let s ← look visit upnode s
      let upcost := L.upcost (s.acost upnode) link
      if upcost < mincost then viterbiLoop visit node rest upcost (some link) s
      else viterbiLoop visit node rest mincost minlink s

/-- `g-viterbi-sub` and `g-compose-viterbi-sub`, with a bound on the depth of the recursion. -/
def viterbiSub : ℕ → ν → Pass κ ν ε → Except Fault (Pass κ ν ε)
  | 0, _, _ => .error .depth
  | fuel + 1, node, s => viterbiLoop L (viterbiSub fuel) node (L.into node) ⊤ none s

/-- The loop that builds the new graph, with a bound on the number of its steps. -/
def retrace (start : ν) (path : ν → Option ε) : ℕ → ν → ℕ → GGraph κ δ →
    Except Fault (GGraph κ δ)
  | 0, _, _, _ => .error .depth
  | fuel + 1, node1, nnode1, ngraph =>
      match path node1 with
      | none => .ok ngraph
      | some link => do
          let node2 := L.src link
          let (nnode2, ngraph) :=
            if node2 = start then (GGraph.startnode, ngraph) else ngraph.newnode
          let ngraph ← ngraph.linkm nnode2 nnode1 (L.cost link) (L.label link) (L.meaning link)
            (L.data link)
          retrace start path fuel node2 nnode2 ngraph

variable [AddCommMonoid κ]

/-- The search and the new graph; `acost` is what the nodes hold from before. -/
def viterbi (fuel : ℕ) (acost : ν → WithTop κ) (start stop : ν) : Except Fault (GGraph κ δ) := do
  let s ← viterbiSub L fuel stop
    { ndflag := fun v => v = start ∨ v = stop
      acost := Function.update acost start 0
      path := fun _ => none }
  retrace L start s.path fuel stop GGraph.endnode GGraph.new

/-- The lattice of `g-viterbi`. -/
def viterbiLattice (graph : GGraph κ δ) : Lattice κ δ ℕ (GLink κ δ) where
  out := graph.downlink
  dst link := link.downnode
  cost link := link.cost
  label link := link.label
  meaning link := link.meaning
  data link := link.data
  into := graph.uplink
  src link := link.upnode
  upcost acost link := link.cost + acost

/-- `g-viterbi`. -/
def gViterbi (graph : GGraph κ δ) (acost : ℕ → WithTop κ) : Except Fault (GGraph κ δ) :=
  viterbi (viterbiLattice graph) (graph.nnodes + 1) acost GGraph.startnode GGraph.endnode

/-- The method `vcost` of `GTrans`. -/
def vcost (link1 link2 : GLink κ δ) : κ := link1.cost + link2.cost

/-- The lattice of `g-compose-viterbi`. -/
def composeLattice (agraph bgraph : GGraph κ δ) (check : GLink κ δ → GLink κ δ → Bool) :
    Lattice κ δ (ℕ × ℕ) (GLink κ δ × GLink κ δ) where
  toFrame := composeFrame agraph bgraph check
  into node :=
    (agraph.uplink node.1).flatMap fun alink =>
      ((bgraph.uplink node.2).filter fun blink => check alink blink).map fun blink =>
        (alink, blink)
  src link := (link.1.upnode, link.2.upnode)
  upcost acost link := if acost < ⊤ then acost + vcost link.1 link.2 else ⊤

/-- `g-compose-viterbi`. -/
def gComposeViterbi (agraph bgraph : GGraph κ δ) (check : GLink κ δ → GLink κ δ → Bool) :
    Except Fault (GGraph κ δ) :=
  viterbi (composeLattice agraph bgraph check) (agraph.nnodes * bgraph.nnodes + 1) (fun _ => 0)
    (GGraph.startnode, GGraph.startnode) (GGraph.endnode, GGraph.endnode)

end Lush.Graph
