import Lush.Basic
import Lush.Library.Balanced

/-!
# The tree of the C objects

The nodes that mirror C objects are in a threaded balanced tree, which the functions of
`lisp_c.c` change in place: a link without a subtree is a thread to the node before or after.
The code has each rotation, and each way down, once for the left and once for the right side,
with the statements exchanged; here they are one definition with the side as a parameter.

At the end are the operations by which the program changes the tree, and its runs.
-/

namespace Lush.Mirror

open Lush.Balanced

/-! ## Nodes -/

/-- An address; 0 is the null pointer. -/
abbrev Ptr := ℕ

/-- `enum CINFO`. -/
inductive CInfo where
  | unlinked
  | obj
  | idx
  | srg
  | str
  | list
  deriving DecidableEq

/-- `enum BELONG`. -/
inductive Belong where
  | lisp
  | c
  deriving DecidableEq

/-- What a node says of a C object. -/
structure Item where
  citem : ℕ
  litem : Ptr
  belong : Belong
  needUpdate : ℕ
  pad : ℕ
  cinfo : CInfo
  cmoreinfo : Ptr
  deriving DecidableEq

/-- New values for the fields, except for the key. -/
def Item.update (f : Item → Item) (item : Item) : Item := { f item with citem := item.citem }

/-- The fields of a node that belong to the tree: `lt` and `rt`, `avl_lthread` and
`avl_rthread`, and `avl_bf`. -/
structure Node where
  item : Item
  sub : Side → Ptr
  thread : Side → Bool
  bf : Tilt

/-- The nodes, and `root`. -/
structure Heap where
  node : Ptr → Node
  root : Ptr

namespace Heap

/-- Fields of a node are assigned. -/
def modify (h : Heap) (p : Ptr) (f : Node → Node) : Heap :=
  { h with node := Function.update h.node p (f (h.node p)) }

def setSub (h : Heap) (p : Ptr) (s : Side) (q : Ptr) : Heap :=
  h.modify p fun n => { n with sub := Function.update n.sub s q }

def setThread (h : Heap) (p : Ptr) (s : Side) (b : Bool) : Heap :=
  h.modify p fun n => { n with thread := Function.update n.thread s b }

def setBf (h : Heap) (p : Ptr) (b : Tilt) : Heap := h.modify p fun n => { n with bf := b }

def setItem (h : Heap) (p : Ptr) (item : Item) : Heap :=
  h.modify p fun n => { n with item := item }

end Heap

/-- Where the pointer to a node stands, the argument `tp` of `_avl_add` and `_avl_del`. -/
inductive Loc where
  | root
  | sub (p : Ptr) (s : Side)
  deriving DecidableEq

namespace Heap

def get (h : Heap) : Loc → Ptr
  | .root => h.root
  | .sub p s => (h.node p).sub s

def put (h : Heap) : Loc → Ptr → Heap
  | .root, q => { h with root := q }
  | .sub p s, q => h.setSub p s q

/-! ## Ways through the tree -/

/-- The loops of `avl_succ` and `avl_pred`. -/
def extreme (h : Heap) (s : Side) : ℕ → Ptr → Option Ptr
  | 0, _ => none
  | fuel + 1, r =>
      if (h.node r).thread s then some r else h.extreme s fuel ((h.node r).sub s)

/-- `avl_succ`, and `avl_pred` for the left side. -/
def avlNext (h : Heap) (s : Side) (fuel : ℕ) (t : Ptr) : Option Ptr :=
  if (h.node t).thread s then some ((h.node t).sub s)
  else h.extreme s.other fuel ((h.node t).sub s)

def avlSucc (h : Heap) (fuel : ℕ) (t : Ptr) : Option Ptr := h.avlNext .right fuel t

def avlPred (h : Heap) (fuel : ℕ) (t : Ptr) : Option Ptr := h.avlNext .left fuel t

/-- The loop of `avl_first`. -/
def firstFrom (h : Heap) (key : ℕ) : ℕ → Ptr → Option Ptr
  | 0, _ => none
  | fuel + 1, t =>
      if key < (h.node t).item.citem then
        if (h.node t).thread .left then some t else h.firstFrom key fuel ((h.node t).sub .left)
      else if (h.node t).item.citem < key then
        if (h.node t).thread .right then h.avlSucc fuel t
        else h.firstFrom key fuel ((h.node t).sub .right)
      else some t

def avlFirst (h : Heap) (fuel : ℕ) (key : ℕ) : Option Ptr :=
  if h.root = 0 then some 0 else h.firstFrom key fuel h.root

/-- The loop of `avl_find`. -/
def findFrom (h : Heap) (key : ℕ) : ℕ → Ptr → Option Ptr
  | 0, _ => none
  | fuel + 1, t =>
      if key < (h.node t).item.citem then
        if (h.node t).thread .left then some 0 else h.findFrom key fuel ((h.node t).sub .left)
      else if (h.node t).item.citem < key then
        if (h.node t).thread .right then some 0 else h.findFrom key fuel ((h.node t).sub .right)
      else some t

def avlFind (h : Heap) (fuel : ℕ) (key : ℕ) : Option Ptr :=
  if h.root = 0 then some 0 else h.findFrom key fuel h.root

/-- The loop over all nodes, `for (n = avl_first(0); n; n = avl_succ(n))`. -/
def visitFrom (h : Heap) (fuel : ℕ) : ℕ → Ptr → Option (List Item)
  | 0, _ => none
  | steps + 1, n =>
      if n = 0 then some []
      else do
        let m ← h.avlSucc fuel n
        let rest ← h.visitFrom fuel steps m
        some ((h.node n).item :: rest)

def visit (h : Heap) (fuel : ℕ) : Option (List Item) := do
  let n ← h.avlFirst fuel 0
  h.visitFrom fuel fuel n

/-- What the node says, if it is one. -/
def itemAt (h : Heap) (n : Ptr) : Option Item := if n = 0 then none else some (h.node n).item

/-! ## Rotations -/

/-- The child of side `u` comes up. -/
def rotateOnce (h : Heap) (u : Side) (tp : Loc) (t : Ptr) (bt bl : Tilt) : Heap :=
  let l := (h.node t).sub u
  let h := h.setSub t u (if (h.node l).thread u.other then l else (h.node l).sub u.other)
  let h := h.setThread t u ((h.node l).thread u.other)
  let h := h.setSub l u.other t
  let h := h.setThread l u.other false
  let h := h.setBf t bt
  let h := h.setBf l bl
  h.put tp l

/-- The grandchild between comes up. -/
def rotateTwice (h : Heap) (u : Side) (tp : Loc) (t : Ptr) : Heap :=
  let l := (h.node t).sub u
  let r := (h.node l).sub u.other
  let h := h.setThread l u.other ((h.node r).thread u)
  let h := h.setSub l u.other (if (h.node r).thread u then r else (h.node r).sub u)
  let h := h.setSub r u l
  let h := h.setThread r u false
  let h := h.setThread t u ((h.node r).thread u.other)
  let h := h.setSub t u (if (h.node r).thread u.other then r else (h.node r).sub u.other)
  let h := h.setSub r u.other t
  let h := h.setThread r u.other false
  let h := h.setBf t (if (h.node r).bf = .heavy u then .heavy u.other else .even)
  let h := h.setBf l (if (h.node r).bf = .heavy u.other then .heavy u else .even)
  let h := h.setBf r .even
  h.put tp r

/-- The end of `_avl_add` after the subtree of side `s` grew; whether the tree did. -/
def growAt (h : Heap) (s : Side) (tp : Loc) (t : Ptr) : Heap × Bool :=
  match (h.node t).bf with
  | .even => (h.setBf t (.heavy s), true)
  | .heavy s' =>
      if s' = s then
        let l := (h.node t).sub s
        if (h.node l).bf = .heavy s then (h.rotateOnce s tp t .even .even, false)
        else (h.rotateTwice s tp t, false)
      else (h.setBf t .even, false)

/-- The end of `_avl_del` after the subtree of side `s` shrank; whether the tree did. -/
def shrinkAt (h : Heap) (s : Side) (tp : Loc) (t : Ptr) : Heap × Bool :=
  match (h.node t).bf with
  | .even => (h.setBf t (.heavy s.other), false)
  | .heavy s' =>
      if s' = s then (h.setBf t .even, true)
      else
        let r := (h.node t).sub s.other
        match (h.node r).bf with
        | .even => (h.rotateOnce s.other tp t (.heavy s.other) (.heavy s), false)
        | .heavy u =>
            if u = s then (h.rotateTwice s.other tp t, true)
            else (h.rotateOnce s.other tp t .even .even, true)

end Heap

/-! ## The state -/

/-- The fields `chnxt` and `chprv` of the nodes. -/
structure Chains where
  nxt : Ptr → Ptr
  prv : Ptr → Ptr

/-- `avlchain_set`. -/
def Chains.set (c : Chains) (n head : Ptr) : Chains :=
  let c := if c.prv n ≠ 0 ∧ c.nxt n ≠ 0 then
      let c := { c with nxt := Function.update c.nxt (c.prv n) (c.nxt n) }
      { c with prv := Function.update c.prv (c.nxt n) (c.prv n) }
    else c
  if head ≠ 0 then
    let c := { c with nxt := Function.update c.nxt n (c.nxt head) }
    let c := { c with prv := Function.update c.prv n head }
    let c := { c with prv := Function.update c.prv (c.nxt n) n }
    { c with nxt := Function.update c.nxt (c.prv n) n }
  else ⟨Function.update c.nxt n 0, Function.update c.prv n 0⟩

/-- The chain part of `_avlnode_copy`. -/
def Chains.copy (c : Chains) (source target : Ptr) : Chains :=
  let c := if c.nxt target ≠ 0 ∧ c.prv target ≠ 0 then c.set target 0 else c
  let c := { c with nxt := Function.update c.nxt target (c.nxt source) }
  let c := { c with prv := Function.update c.prv target (c.prv source) }
  let c := if c.nxt target ≠ 0 then
      { c with prv := Function.update c.prv (c.nxt target) target } else c
  let c := if c.prv target ≠ 0 then
      { c with nxt := Function.update c.nxt (c.prv target) target } else c
  ⟨Function.update c.nxt source 0, Function.update c.prv source 0⟩

/-- `avlnode_alloc`: the nodes not in use, and the address of the next chunk. -/
structure Pool where
  freelist : List Ptr
  chunk : Ptr

def chunksize : ℕ := 1000

/-- `allocate`. -/
def Pool.allocate (a : Pool) : Ptr × Pool :=
  match a.freelist with
  | n :: free => (n, { a with freelist := free })
  | [] =>
      (a.chunk + (chunksize - 1),
        ⟨(List.range' a.chunk (chunksize - 1)).reverse, a.chunk + chunksize⟩)

def Pool.deallocate (a : Pool) (n : Ptr) : Pool := { a with freelist := n :: a.freelist }

structure State where
  heap : Heap
  chains : Chains
  pool : Pool
  nobjects : ℕ
  targetItem : ℕ
  needRebalancing : Bool
  alreadyFound : Bool
  foundNode : Ptr

namespace State

/-! ## `avl_add` -/

/-- `memset(n, 0, ..)` and the key. -/
def newItem (key : ℕ) : Item := ⟨key, 0, .lisp, 0, 0, .unlinked, 0⟩

/-- `_avlnode_new`. -/
def newNode (st : State) (key : ℕ) : Ptr × State :=
  let n := st.pool.allocate.1
  (n, { st with
    pool := st.pool.allocate.2
    chains := ⟨Function.update st.chains.nxt n 0, Function.update st.chains.prv n 0⟩
    heap := st.heap.modify n fun _ =>
      ⟨newItem key, fun _ => 0, fun _ => false, .even⟩ })

/-- A new node takes the place of the thread of `t` on side `s`. -/
def addLeaf (s : Side) (t : Ptr) (st : State) : State :=
  let st := { st with nobjects := st.nobjects + 1 }
  let (n, st) := st.newNode st.targetItem
  let h := st.heap
  let h := h.setThread n .left true
  let h := h.setThread n .right true
  let h := h.setSub n s ((h.node t).sub s)
  let h := h.setSub n s.other t
  let h := h.setSub t s n
  let h := h.setThread t s false
  { st with heap := h, foundNode := n, needRebalancing := true }

/-- The branch of `_avl_add` for a key on side `s` of the node `t`. -/
def addSide (recur : Loc → State → Option State) (s : Side) (tp : Loc) (t : Ptr) (st : State) :
    Option State :=
  (if (st.heap.node t).thread s then some (st.addLeaf s t) else recur (.sub t s) st).map fun st =>
    if st.needRebalancing then
      let r := st.heap.growAt s tp t
      { st with heap := r.1, needRebalancing := r.2 }
    else st

/-- `_avl_add`. -/
def avlAddAt : ℕ → Loc → State → Option State
  | 0, _, _ => none
  | fuel + 1, tp, st =>
      let t := st.heap.get tp
      if st.targetItem = (st.heap.node t).item.citem then some { st with foundNode := t }
      else if st.targetItem < (st.heap.node t).item.citem then addSide (avlAddAt fuel) .left tp t st
      else addSide (avlAddAt fuel) .right tp t st

/-- `avl_add`. -/
def avlAdd (fuel : ℕ) (key : ℕ) (st : State) : Option (Ptr × State) :=
  if st.heap.root = 0 then
    let st := { st with nobjects := st.nobjects + 1 }
    let (n, st) := st.newNode key
    let h := { st.heap with root := n }
    let h := h.setThread n .right true
    let h := h.setThread n .left true
    some (n, { st with heap := h })
  else do
    let st ← avlAddAt fuel .root { st with targetItem := key, needRebalancing := false }
    some (st.foundNode, st)

/-! ## `avl_del` -/

/-- `_avlnode_copy`. -/
def copyNode (st : State) (source target : Ptr) : State :=
  { st with
    heap := st.heap.setItem target (st.heap.node source).item
    chains := st.chains.copy source target }

/-- A node without subtrees goes. -/
def delLeaf (par t : Ptr) (st : State) : State :=
  let h := st.heap
  let h := if t = (h.node par).sub .left then
      (h.setThread par .left true).setSub par .left ((h.node t).sub .left)
    else (h.setThread par .right true).setSub par .right ((h.node t).sub .right)
  { st with heap := h, foundNode := t, needRebalancing := true }

/-- A node without a subtree on side `s` goes. -/
def delOne (fuel : ℕ) (s : Side) (tp : Loc) (t : Ptr) (st : State) : Option State := do
  let h := st.heap
  let n ← h.avlNext s.other fuel t
  let h := if n ≠ 0 ∧ (h.node n).thread s then h.setSub n s ((h.node t).sub s) else h
  let h := h.put tp ((h.node t).sub s.other)
  some { st with heap := h, foundNode := t, needRebalancing := true }

/-- The branch of `_avl_del` for a key on side `s` of the node `t`. -/
def delSide (recur : Loc → State → Option State) (s : Side) (tp : Loc) (t : Ptr) (st : State) :
    Option State :=
  if (st.heap.node t).thread s then some st
  else
    (recur (.sub t s) st).map fun st =>
      if !st.needRebalancing then st
      else
        let r := st.heap.shrinkAt s tp t
        { st with heap := r.1, needRebalancing := r.2 }

/-- `_avl_del`. -/
def avlDelAt : ℕ → Ptr → Loc → State → Option State
  | 0, _, _, _ => none
  | fuel + 1, par, tp, st =>
      let t := st.heap.get tp
      let n := st.heap.node t
      let comp := if st.alreadyFound then if n.thread .right then .eq else .gt
        else compare st.targetItem n.item.citem
      match comp with
      | .lt => delSide (avlDelAt fuel t) .left tp t st
      | .gt => delSide (avlDelAt fuel t) .right tp t st
      | .eq =>
          if n.thread .left && n.thread .right then some (st.delLeaf par t)
          else if n.thread .left then st.delOne fuel .left tp t
          else if n.thread .right then st.delOne fuel .right tp t
          else do
            -- the item is replaced by the one before, whose node goes instead
            let p ← st.heap.avlPred fuel t
            delSide (avlDelAt fuel t) .left tp t { st.copyNode p t with alreadyFound := true }

/-- `avl_del`. -/
def avlDel (fuel : ℕ) (key : ℕ) (st : State) : Option (Bool × State) := do
  let st := { st with
    needRebalancing := false, alreadyFound := false, foundNode := 0, targetItem := key }
  let st ← if st.heap.root ≠ 0 then avlDelAt fuel st.heap.root .root st else some st
  if st.foundNode = 0 then some (false, st)
  else
    let st := { st with
      chains := st.chains.set st.foundNode 0
      pool := st.pool.deallocate st.foundNode
      nobjects := st.nobjects - 1 }
    if st.nobjects = 0 then some (true, { st with heap := { st.heap with root := 0 } })
    else some (true, st)

/-! ## What the program does with the tree -/

/-- The fields of a node get new values, except for its key. -/
def assign (n : Ptr) (f : Item → Item) (st : State) : State :=
  { st with heap := st.heap.setItem n ((st.heap.node n).item.update f) }

/-- What `cside_destroy_node` does with the tree and the chains; the Lisp object and the memory of
the item are not part of this state. -/
def csideDestroyNode (fuel : ℕ) (n : Ptr) (st : State) : Option State :=
  let item := (st.heap.node n).item
  if item.belong ≠ .c then some st
  else
    let st := if item.litem ≠ 0 then { st with chains := st.chains.set n 0 } else st
    (st.avlDel fuel item.citem).map Prod.snd

/-- The loop of `cside_destroy_range`; the next node is looked up before the node goes. -/
def destroyFrom (fuel stop : ℕ) : ℕ → Ptr → State → Option State
  | 0, _, _ => none
  | steps + 1, n, st =>
      if n ≠ 0 ∧ (st.heap.node n).item.citem < stop then do
        let m ← st.heap.avlSucc fuel n
        let st ← if (st.heap.node n).item.belong = .c then st.csideDestroyNode fuel n else some st
        destroyFrom fuel stop steps m st
      else some st

/-- `cside_destroy_range`. -/
def csideDestroyRange (fuel start stop : ℕ) (st : State) : Option State := do
  let n ← st.heap.avlFirst fuel start
  st.destroyFrom fuel stop fuel n

end State

/-- What the program does with the tree: it adds a node and sets its fields, sets the fields of
a node that it finds, deletes a node, or destroys the nodes of a range. -/
inductive AvlOp where
  | add (key : ℕ) (f : Item → Item)
  | update (key : ℕ) (f : Item → Item)
  | del (key : ℕ)
  | destroyRange (start stop : ℕ)

def AvlOp.run (fuel : ℕ) (op : AvlOp) (st : State) : Option State :=
  match op with
  | .add key f => (st.avlAdd fuel key).map fun r => r.2.assign r.1 f
  | .update key f => (st.heap.avlFind fuel key).map fun n => if n = 0 then st else st.assign n f
  | .del key => (st.avlDel fuel key).map Prod.snd
  | .destroyRange start stop => st.csideDestroyRange fuel start stop

/-- The program starts without nodes; `chunk` is the address of the first chunk of nodes. -/
def State.initial (node : Ptr → Node) (chunk : Ptr) : State where
  heap := ⟨node, 0⟩
  chains := ⟨fun _ => 0, fun _ => 0⟩
  pool := ⟨[], chunk⟩
  nobjects := 0
  targetItem := 0
  needRebalancing := false
  alreadyFound := false
  foundNode := 0

/-- A run, one step after the other. -/
def runOps (fuel : ℕ) (ops : List AvlOp) (st : State) : Option State :=
  ops.foldlM (fun st op => op.run fuel st) st

end Lush.Mirror
