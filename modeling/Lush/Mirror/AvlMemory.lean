import Lush.Basic
import Lush.Mirror.AvlTree

/-!
# Trees in memory

`Rep` says that the nodes in memory stand for a tree of places and items: a link without a
subtree is a thread to the end of the range.  A rotation in memory is a rotation of the tree
(`rep_turn`).  `Becomes` says that a tree has become another one where it is, and nothing else
has changed; `growAt` and `shrinkAt` do to the memory what `grow` and `shrink` do to the tree.
-/

namespace Lush.Mirror

open Lush.Balanced

/-! ## Trees in memory -/

abbrev PTree := AvlTree (Ptr × Item)

/-- The nodes of a tree. -/
def ptrs (T : PTree) : List Ptr := T.toList.map Prod.fst

/-- The link to a tree: its root, or a thread. -/
def rootOr (e : Ptr) : PTree → Ptr
  | .nil => e
  | .node _ a _ => a.1

/-- The nodes in memory stand for a tree, between two ends. -/
def Rep (node : Ptr → Node) : PTree → (Side → Ptr) → Prop
  | .nil, _ => True
  | .node bf a sub, ends => (node a.1).item = a.2 ∧ (node a.1).bf = bf ∧
      ∀ s, (node a.1).thread s = (sub s).isNil ∧ (node a.1).sub s = rootOr (ends s) (sub s) ∧
        Rep node (sub s) (Function.update ends s.other a.1)

variable {node node' : Ptr → Node} {bf bt bl : Tilt} {a l : Ptr × Item} {sub subl : Side → PTree}
  {ends : Side → Ptr} {T : PTree} {u s : Side}

theorem ptrs_node : ptrs (.node bf a sub) = ptrs (sub .left) ++ a.1 :: ptrs (sub .right) := by
  rw [ptrs, AvlTree.toList, List.map_append, List.map_cons, ptrs, ptrs]

theorem mem_ptrs_node {p : Ptr} (s : Side) : p ∈ ptrs (.node bf a sub) ↔
    p = a.1 ∨ p ∈ ptrs (sub s) ∨ p ∈ ptrs (sub s.other) := by
  rw [ptrs_node, List.mem_append, List.mem_cons]
  cases s with
  | left => exact or_left_comm
  | right => exact ⟨fun h => by tauto, fun h => by tauto⟩

/-- The nodes of the subtrees and the root are different ones. -/
theorem nodup_node (s : Side) : (ptrs (.node bf a sub)).Nodup ↔
    (ptrs (sub s)).Nodup ∧ (ptrs (sub s.other)).Nodup ∧ a.1 ∉ ptrs (sub s) ∧
      a.1 ∉ ptrs (sub s.other) ∧ ∀ p ∈ ptrs (sub s), p ∉ ptrs (sub s.other) := by
  rw [ptrs_node, List.nodup_append', List.nodup_cons, List.disjoint_cons_right]
  have hdisjoint : (ptrs (sub .left)).Disjoint (ptrs (sub .right)) ↔
      ∀ p ∈ ptrs (sub s), p ∉ ptrs (sub s.other) := by
    cases s with
    | left => exact Iff.rfl
    | right => exact ⟨fun h p hp hq => h hq hp, fun h p hp hq => h p hq hp⟩
  rw [hdisjoint]
  cases s with
  | left => tauto
  | right => tauto

theorem rep_congr (h : Rep node T ends) (hnode : ∀ p ∈ ptrs T, node' p = node p) :
    Rep node' T ends := by
  induction T generalizing ends with
  | nil => trivial
  | node bf a sub ih =>
      obtain ⟨hitem, hbf, hsub⟩ := h
      have hroot := hnode a.1 ((mem_ptrs_node .left).mpr (.inl rfl))
      refine ⟨hroot ▸ hitem, hroot ▸ hbf, fun s => ?_⟩
      obtain ⟨hthread, hlink, hrep⟩ := hsub s
      exact ⟨hroot ▸ hthread, hroot ▸ hlink,
        ih s hrep fun p hp => hnode p ((mem_ptrs_node s).mpr (.inr (.inl hp)))⟩

/-- The link of a node to the subtree of side `s` leads to `T`. -/
def Node.link (n : Node) (s : Side) (e : Ptr) (T : PTree) : Node :=
  { n with sub := Function.update n.sub s (rootOr e T)
           thread := Function.update n.thread s T.isNil }

/-- The subtree of one side is replaced in memory. -/
theorem rep_replace (h : Rep node (.node bf a sub) ends)
    (hT : Rep node' T (Function.update ends s.other a.1))
    (hroot : node' a.1 = (node a.1).link s (ends s) T)
    (hnode : ∀ p ∈ ptrs (sub s.other), node' p = node p) :
    Rep node' (.node bf a (Function.update sub s T)) ends := by
  obtain ⟨hitem, hbf, hsub⟩ := h
  refine ⟨by rw [hroot]; exact hitem, by rw [hroot]; exact hbf, fun s' => ?_⟩
  rw [hroot]
  obtain rfl | rfl := s.eq_or_eq_other s'
  · dsimp only [Node.link]
    rw [Function.update_self, Function.update_self, Function.update_self]
    exact ⟨rfl, rfl, hT⟩
  · dsimp only [Node.link]
    rw [Function.update_of_ne s.other_ne, Function.update_of_ne s.other_ne,
      Function.update_of_ne s.other_ne]
    obtain ⟨hthread, hlink, hrep⟩ := hsub s.other
    exact ⟨hthread, hlink, rep_congr hrep hnode⟩

/-- What a rotation leaves in memory. -/
def turn (node : Ptr → Node) (u : Side) (t : Ptr) (bt bl : Tilt) : Ptr → Node :=
  let l := (node t).sub u
  Function.update
    (Function.update node t
      { node t with
        sub := Function.update (node t).sub u
          (if (node l).thread u.other then l else (node l).sub u.other)
        thread := Function.update (node t).thread u ((node l).thread u.other)
        bf := bt })
    l { node l with
        sub := Function.update (node l).sub u.other t
        thread := Function.update (node l).thread u.other false
        bf := bl }

theorem turn_root (bt bl : Tilt) {t p : Ptr} (hp : (node t).sub u = p) (hne : t ≠ p) :
    turn node u t bt bl t =
      { node t with
        sub := Function.update (node t).sub u
          (if (node p).thread u.other then p else (node p).sub u.other)
        thread := Function.update (node t).thread u ((node p).thread u.other)
        bf := bt } := by
  rw [turn, hp, Function.update_of_ne hne, Function.update_self]

theorem turn_child (bt bl : Tilt) {t p : Ptr} (hp : (node t).sub u = p) :
    turn node u t bt bl p =
      { node p with
        sub := Function.update (node p).sub u.other t
        thread := Function.update (node p).thread u.other false
        bf := bl } := by
  rw [turn, hp, Function.update_self]

theorem turn_of_ne {t p q : Ptr} (hp : (node t).sub u = p) (hqt : q ≠ t) (hqp : q ≠ p) :
    turn node u t bt bl q = node q := by
  rw [turn, hp, Function.update_of_ne hqp, Function.update_of_ne hqt]

theorem ite_rootOr {b : Bool} {q e e' : Ptr} (hb : b = T.isNil) (hq : q = rootOr e T) :
    (if b then e' else q) = rootOr e' T := by
  cases T with
  | nil => exact if_pos hb
  | node bf a sub =>
      rw [hb, hq]
      rfl

/-- A rotation in memory is a rotation of the tree. -/
theorem rep_turn (bt bl : Tilt) {b : Tilt} (h : Rep node (.node bf a sub) ends)
    (hnodup : (ptrs (.node bf a sub)).Nodup) (hl : sub u = .node b l subl) :
    Rep (turn node u a.1 bt bl) (AvlTree.rotate u bt bl a sub) ends := by
  obtain ⟨hitem, -, hsub⟩ := h
  obtain ⟨-, hlinku, hrepu⟩ := hsub u
  obtain ⟨hthreado, hlinko, hrepo⟩ := hsub u.other
  obtain ⟨hnodupu, -, ha, hao, hdisjoint⟩ := (nodup_node u).mp hnodup
  rw [hl] at hlinku hrepu hnodupu ha hdisjoint
  obtain ⟨hiteml, -, hsubl⟩ := hrepu
  obtain ⟨hthreadx, hlinkx, hrepx⟩ := hsubl u
  obtain ⟨hthready, hlinky, hrepy⟩ := hsubl u.other
  obtain ⟨-, -, hlx, hly, -⟩ := (nodup_node u).mp hnodupu
  have hmem : ∀ {p}, p ∈ ptrs (.node b l subl) ↔ p = l.1 ∨ p ∈ ptrs (subl u) ∨
    p ∈ ptrs (subl u.other) := mem_ptrs_node u
  have hal : a.1 ≠ l.1 := fun heq => ha (hmem.mpr (.inl heq))
  have hlink : (node a.1).sub u = l.1 := hlinku
  have hroot := turn_root bt bl hlink hal
  have hchild := turn_child bt bl hlink
  have hrest := fun q => @turn_of_ne node bt bl u _ _ q hlink
  -- the subtrees themselves do not change
  have hx := rep_congr hrepx fun p hp =>
    hrest p (fun heq => ha (heq ▸ hmem.mpr (.inr (.inl hp)))) fun heq => hlx (heq ▸ hp)
  have hy := rep_congr hrepy fun p hp =>
    hrest p (fun heq => ha (heq ▸ hmem.mpr (.inr (.inr hp)))) fun heq => hly (heq ▸ hp)
  have hz := rep_congr hrepo fun p hp =>
    hrest p (fun heq => hao (heq ▸ hp)) fun heq => hdisjoint _ (hmem.mpr (.inl heq)) hp
  rw [Function.update_idem] at hx
  rw [Side.other_other] at hy hz
  rw [Function.update_of_ne u.ne_other] at hlinkx
  have hdown : Rep (turn node u a.1 bt bl)
      (.node bt a (Function.update sub u (subl u.other))) (Function.update ends u l.1) := by
    refine ⟨by rw [hroot]; exact hitem, by rw [hroot], fun s => ?_⟩
    rw [hroot]
    dsimp only
    obtain rfl | rfl := u.eq_or_eq_other s
    · rw [Function.update_self, Function.update_self, Function.update_self, Function.update_self,
        Function.update_comm s.ne_other]
      exact ⟨hthready, ite_rootOr hthready hlinky, hy⟩
    · rw [Function.update_of_ne u.other_ne, Function.update_of_ne u.other_ne,
        Function.update_of_ne u.other_ne, Function.update_of_ne u.other_ne, Side.other_other,
        Function.update_idem]
      exact ⟨hthreado, hlinko, hz⟩
  rw [AvlTree.rotate, hl]
  refine ⟨by rw [hchild]; exact hiteml, by rw [hchild], fun s => ?_⟩
  rw [hchild]
  dsimp only
  obtain rfl | rfl := u.eq_or_eq_other s
  · rw [Function.update_of_ne s.ne_other, Function.update_of_ne s.ne_other,
      Function.update_of_ne s.ne_other]
    exact ⟨hthreadx, hlinkx, hx⟩
  · rw [Function.update_self, Function.update_self, Function.update_self, Side.other_other]
    exact ⟨rfl, rfl, hdown⟩

/-! ## Rotations in memory -/

section

variable {h : Heap} {t p q : Ptr} {tp : Loc}

@[simp]
theorem Heap.modify_self (f : Node → Node) : (h.modify p f).node p = f (h.node p) :=
  Function.update_self ..

theorem Heap.modify_of_ne (f : Node → Node) (hne : q ≠ p) : (h.modify p f).node q = h.node q :=
  Function.update_of_ne hne ..

theorem Heap.put_sub_self : (h.put (.sub p s) q).node p =
    { h.node p with sub := Function.update (h.node p).sub s q } :=
  Function.update_self ..

theorem Heap.put_sub_of_ne {r : Ptr} (hne : r ≠ p) : (h.put (.sub p s) q).node r = h.node r :=
  Function.update_of_ne hne ..

theorem rotateOnce_eq (hp : (h.node t).sub u = p) (hne : t ≠ p) :
    h.rotateOnce u tp t bt bl = (Heap.mk (turn h.node u t bt bl) h.root).put tp p := by
  subst hp
  rw [Heap.rotateOnce]
  refine congrArg (fun h => Heap.put h tp _) (congrArg (Heap.mk · h.root) (funext fun x => ?_))
  by_cases hxt : x = t
  · subst hxt
    rw [turn_root _ _ rfl hne]
    simp [Heap.setSub, Heap.setThread, Heap.setBf, Heap.modify, hne, hne.symm]
  · by_cases hxp : x = (h.node t).sub u
    · subst hxp
      rw [turn_child _ _ rfl]
      simp [Heap.setSub, Heap.setThread, Heap.setBf, Heap.modify, hne, hne.symm]
    · rw [turn_of_ne rfl hxt hxp]
      simp [Heap.setSub, Heap.setThread, Heap.setBf, Heap.modify, hxt, hxp]

/-- The rotation that brings up a grandchild is one of the child, and then one of the node. -/
theorem rotateTwice_eq {r : Ptr} (hp : (h.node t).sub u = p) (hr : (h.node p).sub u.other = r)
    (htp : t ≠ p) (htr : t ≠ r) (hpr : p ≠ r) :
    h.rotateTwice u tp t =
      (Heap.mk (turn
        (((Heap.mk (turn h.node u.other p
          (if (h.node r).bf = .heavy u.other then .heavy u else .even) (h.node r).bf) h.root).setSub
            t u r).node) u t
        (if (h.node r).bf = .heavy u then .heavy u.other else .even) .even) h.root).put tp r := by
  subst hp
  subst hr
  rw [Heap.rotateTwice]
  refine congrArg (fun h => Heap.put h tp _) (congrArg (Heap.mk · h.root) (funext fun x => ?_))
  set p := (h.node t).sub u with hp
  set r := (h.node p).sub u.other with hr
  set tl : Tilt := if (h.node r).bf = .heavy u.other then .heavy u else .even with htl
  set tt : Tilt := if (h.node r).bf = .heavy u then .heavy u.other else .even with htt
  let h1 := (Heap.mk (turn h.node u.other p tl (h.node r).bf) h.root).setSub t u r
  have h1t : h1.node t = { h.node t with sub := Function.update (h.node t).sub u r } := by
    dsimp only [h1]
    rw [Heap.setSub, Heap.modify_self]
    dsimp only
    rw [turn_of_ne hr.symm htp htr]
  have h1p : h1.node p = (turn h.node u.other p tl (h.node r).bf) p :=
    Heap.modify_of_ne _ htp.symm
  have h1r : h1.node r = (turn h.node u.other p tl (h.node r).bf) r :=
    Heap.modify_of_ne _ htr.symm
  have hup : (h1.node t).sub u = r := by rw [h1t]; exact Function.update_self ..
  change _ = turn h1.node u t tt .even x
  by_cases hxt : x = t
  · subst hxt
    rw [turn_root _ _ hup htr, h1t, h1r, turn_child _ _ hr.symm]
    simp [Heap.setSub, Heap.setThread, Heap.setBf, Heap.modify, htp, htr, hpr, htp.symm, htr.symm,
      hpr.symm]
    rfl
  · by_cases hxr : x = r
    · subst hxr
      rw [turn_child _ _ hup, h1r, turn_child _ _ hr.symm]
      simp [Heap.setSub, Heap.setThread, Heap.setBf, Heap.modify, htp, htr, hpr, htp.symm,
        htr.symm, hpr.symm]
    · rw [turn_of_ne hup hxt hxr]
      by_cases hxp : x = p
      · subst hxp
        rw [h1p, turn_root _ _ hr.symm hpr]
        simp [Heap.setSub, Heap.setThread, Heap.setBf, Heap.modify, htp, htr, hpr, htp.symm,
          htr.symm, hpr.symm]
        rfl
      · have h1x : h1.node x = h.node x :=
          (Heap.modify_of_ne _ hxt).trans (turn_of_ne hr.symm hxp hxr)
        rw [h1x]
        simp [Heap.setSub, Heap.setThread, Heap.setBf, Heap.modify, hxt, hxr, hxp]

/-! ## Trees that change in place -/

/-- The pointer to a tree does not stand in one of some nodes. -/
def Loc.Free : Loc → List Ptr → Prop
  | .root, _ => True
  | .sub p _, L => p ∉ L

/-- In memory the tree `T` at `tp` has become `T'`, and nothing else has changed. -/
structure Becomes (h h' : Heap) (tp : Loc) (T T' : PTree) (ends : Side → Ptr) : Prop where
  rep : Rep h'.node T' ends
  node : ∀ q ∉ ptrs T, q ∉ ptrs T' → h'.node q = (h.put tp (rootOr 0 T')).node q
  root : h'.root = (h.put tp (rootOr 0 T')).root

variable {T₁ T₂ : PTree} {h₁ h₂ : Heap}

theorem ptrs_congr (heq : T₁.toList = T.toList) : ptrs T₁ = ptrs T :=
  congrArg (List.map Prod.fst) heq

theorem put_node {L : List Ptr} (hfree : tp.Free L) (hq : q ∈ L) :
    (h.put tp p).node q = h.node q := by
  cases tp with
  | root => rfl
  | sub p' s =>
      rw [Heap.put, Heap.setSub, Heap.modify_of_ne]
      rintro rfl
      exact hfree hq

theorem put_get (h : Heap) (tp : Loc) : h.put tp (h.get tp) = h := by
  cases tp with
  | root => rfl
  | sub p s =>
      refine congrArg (Heap.mk · h.root) (funext fun q => ?_)
      obtain rfl | hne := eq_or_ne q p
      · rw [Function.update_self]
        dsimp only [Heap.get]
        rw [Function.update_eq_self]
      · rw [Function.update_of_ne hne]

theorem get_put (h : Heap) (tp : Loc) (p : Ptr) : (h.put tp p).get tp = p := by
  cases tp with
  | root => rfl
  | sub q s =>
      rw [Heap.get, Heap.put, Heap.setSub, Heap.modify_self]
      exact Function.update_self ..

theorem get_congr (hroot : h₁.root = h.root) {L : List Ptr} (hfree : tp.Free L)
    (hnode : ∀ q ∉ L, h₁.node q = h.node q) : h₁.get tp = h.get tp := by
  cases tp with
  | root => exact hroot
  | sub p s => exact congrArg (Node.sub · s) (hnode p hfree)

/-- Assignments to the same place. -/
theorem put_put_node (hnode : h₁.node q = (h.put tp p).node q) (r : Ptr) :
    (h₁.put tp r).node q = (h.put tp r).node q := by
  cases tp with
  | root => exact hnode
  | sub p' s =>
      rw [Heap.put, Heap.setSub, Heap.put, Heap.setSub]
      obtain rfl | hne := eq_or_ne q p'
      · rw [Heap.put, Heap.setSub, Heap.modify_self] at hnode
        rw [Heap.modify_self, Heap.modify_self, hnode]
        dsimp only
        rw [Function.update_idem]
      · rw [Heap.put, Heap.setSub, Heap.modify_of_ne _ hne] at hnode
        rw [Heap.modify_of_ne _ hne, Heap.modify_of_ne _ hne, hnode]

theorem put_put_root (hroot : h₁.root = (h.put tp p).root) (r : Ptr) :
    (h₁.put tp r).root = (h.put tp r).root := by
  cases tp with
  | root => rfl
  | sub p' s => exact hroot

theorem Becomes.get (hb : Becomes h h₁ tp T T₁ ends) (hfree : tp.Free (ptrs T))
    (hfree₁ : tp.Free (ptrs T₁)) : h₁.get tp = rootOr 0 T₁ := by
  refine Eq.trans ?_ (get_put h tp _)
  cases tp with
  | root => exact hb.root
  | sub p s => exact congrArg (Node.sub · s) (hb.node p hfree hfree₁)

theorem Becomes.trans (hb : Becomes h h₁ tp T T₁ ends) (hb' : Becomes h₁ h₂ tp T₁ T₂ ends)
    (hptrs : ptrs T₂ = ptrs T₁) : Becomes h h₂ tp T T₂ ends where
  rep := hb'.rep
  node := fun q hq hq₂ => (hb'.node q (hptrs ▸ hq₂) hq₂).trans
    (put_put_node (hb.node q hq (hptrs ▸ hq₂)) _)
  root := hb'.root.trans (put_put_root hb.root _)

/-- A rotation brings a node up to `tp`. -/
theorem becomes_put {N : Ptr → Node} (hrep : Rep N T₁ ends) (hsub : ∀ q ∈ ptrs T₁, q ∈ ptrs T)
    (hfree : tp.Free (ptrs T)) (hN : ∀ q ∉ ptrs T, N q = h.node q) :
    Becomes h ((Heap.mk N h.root).put tp (rootOr 0 T₁)) tp T T₁ ends where
  rep := rep_congr hrep fun q hq => put_node hfree (hsub q hq)
  node := fun q hq _ => put_put_node (p := h.get tp) (by rw [put_get]; exact hN q hq) _
  root := put_put_root (p := h.get tp) (by rw [put_get]) _

/-- The balance field of the root changes. -/
theorem becomes_setBf (hrep : Rep h.node (.node bf a sub) ends) (hget : h.get tp = a.1)
    (hnodup : (ptrs (.node bf a sub)).Nodup) :
    Becomes h (h.setBf a.1 bt) tp (.node bf a sub) (.node bt a sub) ends where
  rep := by
    obtain ⟨hitem, -, hsub⟩ := hrep
    have hroot := Heap.modify_self (h := h) (p := a.1) fun n => { n with bf := bt }
    refine ⟨(congrArg Node.item hroot).trans hitem, congrArg Node.bf hroot, fun s => ?_⟩
    obtain ⟨hthread, hlink, hsub⟩ := hsub s
    refine ⟨(congrArg (Node.thread · s) hroot).trans hthread,
      (congrArg (Node.sub · s) hroot).trans hlink, rep_congr hsub fun q hq => ?_⟩
    exact Heap.modify_of_ne _ fun heq => ((nodup_node s).mp hnodup).2.2.1 (heq ▸ hq)
  node := by
    intro q hq _
    rw [rootOr, ← hget, put_get, hget]
    exact Heap.modify_of_ne _ fun heq => hq ((mem_ptrs_node .left).mpr (.inl heq))
  root := by
    rw [rootOr, ← hget, put_get]
    rfl

theorem becomes_rotateOnce {b : Tilt} (hrep : Rep h.node (.node bf a sub) ends)
    (hnodup : (ptrs (.node bf a sub)).Nodup) (hfree : tp.Free (ptrs (.node bf a sub)))
    (hl : sub u = .node b l subl) :
    Becomes h (h.rotateOnce u tp a.1 bt bl) tp (.node bf a sub) (AvlTree.rotate u bt bl a sub)
      ends := by
  have hlink : (h.node a.1).sub u = l.1 := by rw [(hrep.2.2 u).2.1, hl, rootOr]
  have hmem : l.1 ∈ ptrs (sub u) := hl ▸ (mem_ptrs_node u).mpr (.inl rfl)
  have hal : a.1 ≠ l.1 := fun heq => ((nodup_node u).mp hnodup).2.2.1 (heq ▸ hmem)
  have hroot : rootOr 0 (AvlTree.rotate u bt bl a sub) = l.1 := by
    rw [AvlTree.rotate, hl]
    rfl
  rw [rotateOnce_eq hlink hal, ← hroot]
  have hptrs := ptrs_congr (AvlTree.toList_rotate u bt bl bf a sub)
  refine becomes_put (rep_turn _ _ hrep hnodup hl) (fun q hq => hptrs ▸ hq) hfree ?_
  intro q hq
  refine turn_of_ne hlink (fun heq => hq ((mem_ptrs_node u).mpr (.inl heq))) fun heq => hq ?_
  exact (mem_ptrs_node u).mpr (.inr (.inl (heq ▸ hmem)))

theorem becomes_rotateTwice {b br : Tilt} {r : Ptr × Item} {subr : Side → PTree}
    (hrep : Rep h.node (.node bf a sub) ends) (hnodup : (ptrs (.node bf a sub)).Nodup)
    (hfree : tp.Free (ptrs (.node bf a sub))) (hl : sub u = .node b l subl)
    (hr : subl u.other = .node br r subr) :
    Becomes h (h.rotateTwice u tp a.1) tp (.node bf a sub) (AvlTree.rotateTwice u a sub) ends := by
  obtain ⟨hthreadu, hlinku, hrepu⟩ := hrep.2.2 u
  obtain ⟨hnodupu, -, ha, hao, hdisjoint⟩ := (nodup_node u).mp hnodup
  rw [hl] at hthreadu hlinku hrepu hnodupu
  obtain ⟨-, hlinkr, hrepr⟩ := hrepu.2.2 u.other
  rw [hr] at hlinkr hrepr
  have hmem : ∀ {p}, p ∈ ptrs (.node b l subl) ↔ p = l.1 ∨ p ∈ ptrs (subl u.other) ∨
    p ∈ ptrs (subl u.other.other) := mem_ptrs_node u.other
  have hmemr : r.1 ∈ ptrs (subl u.other) := hr ▸ (mem_ptrs_node u).mpr (.inl rfl)
  have hlink : (h.node a.1).sub u = l.1 := hlinku
  have hlinkr : (h.node l.1).sub u.other = r.1 := hlinkr
  have hal : a.1 ≠ l.1 := fun heq => ha (hl ▸ hmem.mpr (.inl heq))
  have har : a.1 ≠ r.1 := fun heq => ha (hl ▸ hmem.mpr (.inr (.inl (heq ▸ hmemr))))
  have hlr : l.1 ≠ r.1 := fun heq => ((nodup_node u.other).mp hnodupu).2.2.1 (heq ▸ hmemr)
  have hbf : (h.node r.1).bf = br := hrepr.2.1
  rw [rotateTwice_eq hlink hlinkr hal har hlr, hbf]
  set tl : Tilt := if br = .heavy u.other then .heavy u else .even with htl
  set tt : Tilt := if br = .heavy u then .heavy u.other else .even with htt
  -- first the child of the child comes up
  let T₁ := AvlTree.rotate u.other tl br l subl
  have hT₁ : ∃ subr', T₁ = .node br r subr' := by
    dsimp only [T₁]
    rw [AvlTree.rotate, hr]
    exact ⟨_, rfl⟩
  obtain ⟨subr', hT₁⟩ := hT₁
  have hrep₁ := rep_turn tl br hrepu hnodupu hr
  have hptrs₁ : ptrs T₁ = ptrs (sub u) :=
    ptrs_congr (hl ▸ AvlTree.toList_rotate ..)
  set h₁ := (Heap.mk (turn h.node u.other l.1 tl br) h.root).setSub a.1 u r.1 with hh₁
  have hrest : ∀ q ∉ ptrs (sub u), turn h.node u.other l.1 tl br q = h.node q := by
    intro q hq
    rw [hl] at hq
    refine turn_of_ne hlinkr (fun heq => hq (hmem.mpr (.inl heq))) fun heq => hq ?_
    exact hmem.mpr (.inr (.inl (heq ▸ hmemr)))
  have hroot₁ : h₁.node a.1 = (h.node a.1).link u (ends u) T₁ := by
    rw [hh₁, Heap.setSub, Heap.modify_self]
    dsimp only
    rw [hrest _ ha, hT₁, Node.link]
    dsimp only [rootOr, AvlTree.isNil]
    rw [show false = (h.node a.1).thread u from hthreadu.symm, Function.update_eq_self]
  have hnode₁ : ∀ q, q ≠ a.1 → h₁.node q = turn h.node u.other l.1 tl br q :=
    fun q hq => Heap.modify_of_ne _ hq
  have hrep₂ : Rep h₁.node (.node bf a (Function.update sub u T₁)) ends := by
    refine rep_replace hrep (rep_congr hrep₁ fun q hq => hnode₁ q ?_) hroot₁ fun q hq => ?_
    · rintro rfl
      exact ha (hptrs₁ ▸ hq)
    · rw [hnode₁ q (fun heq => hao (heq ▸ hq)), hrest q fun hmem => hdisjoint q hmem hq]
  have hptrs₂ : ptrs (.node bf a (Function.update sub u T₁)) = ptrs (.node bf a sub) := by
    refine ptrs_congr (AvlTree.toList_congr fun s => ?_)
    obtain rfl | hne := eq_or_ne s u
    · rw [Function.update_self, hl]
      exact AvlTree.toList_rotate ..
    · rw [Function.update_of_ne hne]
  -- then it comes up once more
  have hup : (Function.update sub u T₁) u = .node br r subr' := by rw [Function.update_self, hT₁]
  have hrep₃ := rep_turn tt .even hrep₂ (hptrs₂ ▸ hnodup) hup
  have htwice : AvlTree.rotateTwice u a sub =
      AvlTree.rotate u tt .even a (Function.update sub u T₁) := by
    rw [AvlTree.rotateTwice, hl]
    dsimp only
    rw [hr]
  have hroot : rootOr 0 (AvlTree.rotateTwice u a sub) = r.1 := by
    rw [htwice, AvlTree.rotate, hup]
    rfl
  rw [← hroot]
  have hptrs := ptrs_congr (AvlTree.toList_rotateTwice u bf a sub)
  refine becomes_put (htwice ▸ hrep₃) (fun q hq => hptrs ▸ hq) hfree ?_
  intro q hq
  have hqa : q ≠ a.1 := fun heq => hq ((mem_ptrs_node u).mpr (.inl heq))
  have hqu : q ∉ ptrs (sub u) := fun hmem => hq ((mem_ptrs_node u).mpr (.inr (.inl hmem)))
  have hqr : q ≠ r.1 := fun heq => hqu (hl ▸ hmem.mpr (.inr (.inl (heq ▸ hmemr))))
  have hlink₁ : (h₁.node a.1).sub u = r.1 := by
    rw [hroot₁, hT₁]
    exact Function.update_self ..
  rw [turn_of_ne hlink₁ hqa hqr, hnode₁ q hqa, hrest q hqu]

/-! ## Steps up -/

theorem becomes_growAt (hrep : Rep h.node (.node bf a (Function.update sub s T)) ends)
    (hget : h.get tp = a.1) (hnodup : (ptrs (.node bf a (Function.update sub s T))).Nodup)
    (hfree : tp.Free (ptrs (.node bf a (Function.update sub s T))))
    (hheavy : bf = .heavy s →
      ∃ bl l subl, T = .node bl l subl ∧ (bl ≠ .heavy s → subl s.other ≠ .nil)) :
    (h.growAt s tp a.1).2 = (AvlTree.grow s bf a sub T true).2 ∧
      Becomes h (h.growAt s tp a.1).1 tp (.node bf a (Function.update sub s T))
        (AvlTree.grow s bf a sub T true).1 ends := by
  rw [Heap.growAt, hrep.2.1]
  cases bf with
  | even => exact ⟨rfl, becomes_setBf hrep hget hnodup⟩
  | heavy s' =>
      obtain rfl | rfl := s.eq_or_eq_other s'
      · obtain ⟨bl, l, subl, rfl, hmiddle⟩ := hheavy rfl
        obtain ⟨-, hlink, hchild⟩ := hrep.2.2 s'
        rw [Function.update_self] at hlink hchild
        rw [AvlTree.grow_heavy]
        dsimp only
        rw [if_pos rfl, hlink, rootOr, hchild.2.1]
        by_cases hbl : bl = .heavy s'
        · rw [if_pos hbl, if_pos hbl]
          exact ⟨rfl, becomes_rotateOnce hrep hnodup hfree (Function.update_self ..)⟩
        · rw [if_neg hbl, if_neg hbl]
          obtain ⟨br, r, subr, hr⟩ : ∃ br r subr, subl s'.other = .node br r subr := by
            cases hsub : subl s'.other with
            | nil => exact absurd hsub (hmiddle hbl)
            | node br r subr => exact ⟨br, r, subr, rfl⟩
          exact ⟨rfl, becomes_rotateTwice hrep hnodup hfree (Function.update_self ..) hr⟩
      · rw [AvlTree.grow_heavy_other]
        dsimp only
        rw [if_neg s.other_ne]
        exact ⟨rfl, becomes_setBf hrep hget hnodup⟩

theorem becomes_shrinkAt (hrep : Rep h.node (.node bf a (Function.update sub s T)) ends)
    (hget : h.get tp = a.1) (hnodup : (ptrs (.node bf a (Function.update sub s T))).Nodup)
    (hfree : tp.Free (ptrs (.node bf a (Function.update sub s T))))
    (hheavy : bf = .heavy s.other →
      ∃ bc c subc, sub s.other = .node bc c subc ∧ (bc = .heavy s → subc s ≠ .nil)) :
    (h.shrinkAt s tp a.1).2 = (AvlTree.shrink s bf a sub T true).2 ∧
      Becomes h (h.shrinkAt s tp a.1).1 tp (.node bf a (Function.update sub s T))
        (AvlTree.shrink s bf a sub T true).1 ends := by
  rw [Heap.shrinkAt, hrep.2.1]
  cases bf with
  | even => exact ⟨rfl, becomes_setBf hrep hget hnodup⟩
  | heavy s' =>
      obtain rfl | rfl := s.eq_or_eq_other s'
      · rw [AvlTree.shrink_heavy]
        dsimp only
        rw [if_pos rfl]
        exact ⟨rfl, becomes_setBf hrep hget hnodup⟩
      · obtain ⟨bc, c, subc, hc, hmiddle⟩ := hheavy rfl
        obtain ⟨-, hlink, hchild⟩ := hrep.2.2 s.other
        rw [Function.update_of_ne s.other_ne, hc] at hlink hchild
        have hup : (Function.update sub s T) s.other = .node bc c subc := by
          rw [Function.update_of_ne s.other_ne, hc]
        rw [AvlTree.shrink_heavy_other hc]
        dsimp only
        rw [if_neg s.other_ne, hlink, rootOr, hchild.2.1]
        cases bc with
        | even => exact ⟨rfl, becomes_rotateOnce hrep hnodup hfree hup⟩
        | heavy u =>
            rw [if_neg Tilt.noConfusion]
            obtain rfl | rfl := s.eq_or_eq_other u
            · rw [if_pos rfl]
              dsimp only
              rw [if_pos rfl]
              obtain ⟨br, r, subr, hr⟩ : ∃ br r subr, subc u.other.other = .node br r subr := by
                rw [Side.other_other]
                cases hsub : subc u with
                | nil => exact absurd hsub (hmiddle rfl)
                | node br r subr => exact ⟨br, r, subr, rfl⟩
              exact ⟨rfl, becomes_rotateTwice hrep hnodup hfree hup hr⟩
            · rw [if_neg fun heq => s.other_ne (Tilt.heavy.inj heq)]
              dsimp only
              rw [if_neg s.other_ne]
              exact ⟨rfl, becomes_rotateOnce hrep hnodup hfree hup⟩

/-! ## Subtrees and leaves -/

theorem rootOr_of_ne (hT : T ≠ .nil) (e e' : Ptr) : rootOr e T = rootOr e' T := by
  cases T with
  | nil => exact absurd rfl hT
  | node bf a sub => rfl

theorem isNil_of_ne (hT : T ≠ .nil) : T.isNil = false := by
  cases T with
  | nil => exact absurd rfl hT
  | node bf a sub => rfl

/-- A link to another tree. -/
theorem link_eq {n : Node} {e : Ptr} (hthread : n.thread s = false) (hT : T ≠ .nil) :
    n.link s e T = { n with sub := Function.update n.sub s (rootOr 0 T) } := by
  rw [Node.link, isNil_of_ne hT, rootOr_of_ne hT e 0, ← hthread, Function.update_eq_self]

/-- A subtree changed in place, so the tree did. -/
theorem Becomes.up (hrep : Rep h.node (.node bf a sub) ends) (hget : h.get tp = a.1)
    (hnodup : (ptrs (.node bf a sub)).Nodup) (hne : sub s ≠ .nil) (hT : T ≠ .nil)
    (ha : a.1 ∉ ptrs T) (hother : ∀ q ∈ ptrs (sub s.other), q ∉ ptrs T)
    (hb : Becomes h h₁ (.sub a.1 s) (sub s) T (Function.update ends s.other a.1)) :
    Becomes h h₁ tp (.node bf a sub) (.node bf a (Function.update sub s T)) ends := by
  obtain ⟨-, -, hau, hao, hdisjoint⟩ := (nodup_node s).mp hnodup
  have hthread : (h.node a.1).thread s = false := by
    rw [(hrep.2.2 s).1, isNil_of_ne hne]
  have hroot : h₁.node a.1 = (h.node a.1).link s (ends s) T := by
    rw [hb.node _ hau ha, link_eq hthread hT, Heap.put_sub_self]
  have hnode : ∀ q, q ≠ a.1 → q ∉ ptrs (sub s) → q ∉ ptrs T → h₁.node q = h.node q :=
    fun q hq hqs hqT => (hb.node q hqs hqT).trans (Heap.put_sub_of_ne hq)
  constructor
  · exact rep_replace hrep hb.rep hroot fun q hq =>
      hnode q (fun heq => hao (heq ▸ hq)) (fun hqs => hdisjoint q hqs hq) (hother q hq)
  · intro q hq hqT
    rw [rootOr, ← hget, put_get]
    rw [mem_ptrs_node s, not_or, not_or] at hq hqT
    rw [Function.update_self] at hqT
    exact hnode q hq.1 hq.2.1 hqT.2.1
  · rw [rootOr, ← hget, put_get]
    exact hb.root

/-- A new leaf takes the place of a thread. -/
theorem becomes_leaf {item : Item} (hrep : Rep h.node (.node bf a sub) ends)
    (hget : h.get tp = a.1) (hnodup : (ptrs (.node bf a sub)).Nodup) (hnil : sub s = .nil)
    (hp : p ∉ ptrs (.node bf a sub)) (hroot : h₁.root = h.root)
    (hnew : h₁.node p = ⟨item, Function.update (fun _ => a.1) s ((h.node a.1).sub s),
      fun _ => true, .even⟩)
    (hup : h₁.node a.1 = { h.node a.1 with
      sub := Function.update (h.node a.1).sub s p
      thread := Function.update (h.node a.1).thread s false })
    (hrest : ∀ q, q ≠ p → q ≠ a.1 → h₁.node q = h.node q) :
    Becomes h h₁ tp (.node bf a sub)
      (.node bf a (Function.update sub s (.node .even (p, item) fun _ => .nil))) ends := by
  obtain ⟨-, -, -, hao, -⟩ := (nodup_node s).mp hnodup
  have hnode : ∀ q ∈ ptrs (sub s.other), h₁.node q = h.node q := by
    intro q hq
    refine hrest q (fun heq => hp ?_) fun heq => hao (heq ▸ hq)
    exact (mem_ptrs_node s).mpr (.inr (.inr (heq ▸ hq)))
  have hlink : (h.node a.1).sub s = ends s := by rw [(hrep.2.2 s).2.1, hnil, rootOr]
  constructor
  · refine rep_replace hrep ⟨by rw [hnew], by rw [hnew], fun s' => ?_⟩ hup hnode
    rw [hnew]
    refine ⟨rfl, ?_, trivial⟩
    dsimp only
    obtain rfl | rfl := s.eq_or_eq_other s'
    · rw [Function.update_self, Function.update_of_ne s'.ne_other, hlink]
      rfl
    · rw [Function.update_of_ne s.other_ne, Function.update_self]
      rfl
  · intro q hq hqT
    rw [rootOr, ← hget, put_get]
    rw [mem_ptrs_node s, not_or] at hq hqT
    rw [Function.update_self, not_or] at hqT
    exact hrest q (fun heq => hqT.2.1 (heq ▸ List.mem_singleton_self _)) hq.1
  · rw [rootOr, ← hget, put_get, hroot]

end

end Lush.Mirror
