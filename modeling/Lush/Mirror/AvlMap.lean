import Lush.Mirror.AvlMemory

/-!
# Adding and deleting nodes

On its way down and up, `_avl_add` with a new key is `insert` (`avlAddAt_new`), and `_avl_del`
with a key of the tree is `erase` (`avlDelAt_found`).
-/

namespace Lush.Mirror

open Lush.Balanced

variable {node node' : Ptr → Node} {bf bt bl : Tilt} {a l : Ptr × Item} {sub subl : Side → PTree}
  {ends : Side → Ptr} {T : PTree} {u s : Side}

/-! ## `avl_add` -/

/-- The key of a node. -/
def keyOf (a : Ptr × Item) : ℕ := a.2.citem

/-- The state after a new node. -/
def State.added (st : State) (h : Heap) (grew : Bool) : State :=
  let n := st.pool.allocate.1
  { st with
    heap := h
    chains := ⟨Function.update st.chains.nxt n 0, Function.update st.chains.prv n 0⟩
    pool := st.pool.allocate.2
    nobjects := st.nobjects + 1
    foundNode := n
    needRebalancing := grew }

section

variable {st : State} {t p q : Ptr} {tp : Loc} {fuel : ℕ}

theorem addLeaf_eq (hp : st.pool.allocate.1 = p) (hne : t ≠ p) : ∃ h₁ : Heap,
    st.addLeaf s t = st.added h₁ true ∧ h₁.root = st.heap.root ∧
      h₁.node p = ⟨State.newItem st.targetItem,
        Function.update (fun _ => t) s ((st.heap.node t).sub s), fun _ => true, .even⟩ ∧
      h₁.node t = { st.heap.node t with
        sub := Function.update (st.heap.node t).sub s p
        thread := Function.update (st.heap.node t).thread s false } ∧
      ∀ q, q ≠ p → q ≠ t → h₁.node q = st.heap.node q := by
  subst hp
  refine ⟨_, rfl, rfl, ?_, ?_, fun q hqp hqt => ?_⟩
  · have hthread : Function.update (Function.update (fun _ => false) Side.left true) Side.right true =
        fun _ => true := by
      funext s'
      cases s' <;> rfl
    have hsub : Function.update (Function.update (fun _ => 0) s ((st.heap.node t).sub s)) s.other t =
        Function.update (fun _ => t) s ((st.heap.node t).sub s) := by
      funext s'
      obtain rfl | rfl := s.eq_or_eq_other s' <;> simp
    simp [Heap.setSub, Heap.setThread, Heap.modify, hne, hne.symm]
    exact ⟨hsub, hthread⟩
  · simp [Heap.setSub, Heap.setThread, Heap.modify, hne]
  · simp [Heap.setSub, Heap.setThread, Heap.modify, hqp, hqt]

/-- The key is found in the subtree of side `s`. -/
theorem addSide_found {recur : Loc → State → Option State} {st' : State}
    (hthread : (st.heap.node t).thread s = false) (hrec : recur (.sub t s) st = some st')
    (hneed : st'.needRebalancing = false) : st.addSide recur s tp t = some st' := by
  rw [State.addSide, if_neg (by rw [hthread]; exact Bool.false_ne_true), hrec]
  exact congrArg some (if_neg (by rw [hneed]; exact Bool.false_ne_true))

theorem exists_fuel (hfuel : (AvlTree.node bf a sub).height ≤ fuel) :
    ∃ f, fuel = f + 1 ∧ ∀ s, (sub s).height ≤ f := by
  refine ⟨fuel - 1, ?_, fun s => ?_⟩
  · rw [AvlTree.height] at hfuel
    omega
  · rw [AvlTree.height_node s] at hfuel
    omega

theorem ne_nil_of_mem {c : Ptr × Item} (hc : c ∈ T.toList) : T ≠ .nil := by
  rintro rfl
  exact List.not_mem_nil hc

theorem avlAddAt_found (hrep : Rep st.heap.node T ends) (hget : st.heap.get tp = rootOr 0 T)
    (hsorted : T.Sorted keyOf) {c : Ptr × Item} (hc : c ∈ T.toList)
    (hkey : keyOf c = st.targetItem) (hneed : st.needRebalancing = false)
    (hfuel : T.height ≤ fuel) :
    State.avlAddAt fuel tp st = some { st with foundNode := c.1 } := by
  induction T generalizing tp ends fuel with
  | nil => exact absurd hc List.not_mem_nil
  | node bf a sub ih =>
      obtain ⟨f, rfl, hsubfuel⟩ := exists_fuel hfuel
      have hside : ∀ s, c ∈ (sub s).toList →
          st.addSide (State.avlAddAt f) s tp a.1 = some { st with foundNode := c.1 } := by
        intro s hmem
        obtain ⟨hthread, hlink, hsub⟩ := hrep.2.2 s
        have hne := ne_nil_of_mem hmem
        refine addSide_found (hthread.trans (isNil_of_ne hne)) ?_ hneed
        exact ih s hsub (hlink.trans (rootOr_of_ne hne _ _)) (hsorted.subtree s) hmem (hsubfuel s)
      rw [State.avlAddAt, hget, rootOr, hrep.1]
      split_ifs with heq hlt <;> rw [← hkey] at heq
      · obtain hmem | rfl | hmem := AvlTree.mem_node.mp hc
        · exact absurd heq (hsorted.left_lt hmem).ne
        · rfl
        · exact absurd heq (hsorted.lt_right hmem).ne'
      · exact hside .left (hsorted.mem_left hc (hkey ▸ hlt))
      · refine hside .right (hsorted.mem_right hc ?_)
        exact lt_of_le_of_ne (hkey ▸ not_lt.mp hlt) (Ne.symm heq)

theorem ptrs_perm (s : Side) :
    (ptrs (.node bf a sub)).Perm (a.1 :: (ptrs (sub s) ++ ptrs (sub s.other))) := by
  rw [ptrs_node]
  cases s with
  | left => exact List.perm_middle
  | right => exact List.perm_middle.trans ((List.perm_append_comm).cons _)

theorem Loc.Free.mono {L L' : List Ptr} (h : tp.Free L) (hsub : ∀ q ∈ L', q ∈ L) :
    tp.Free L' := by
  cases tp with
  | root => trivial
  | sub p s => exact fun hp => h (hsub p hp)

/-- One way down and up of `_avl_add` for a new key. -/
theorem addSide_new {recur : Loc → State → Option State} {b : Bool}
    (hrep : Rep st.heap.node (.node bf a sub) ends) (hget : st.heap.get tp = a.1)
    (hnodup : (ptrs (.node bf a sub)).Nodup) (havl : (AvlTree.node bf a sub).Avl)
    (hp : st.pool.allocate.1 ∉ ptrs (.node bf a sub))
    (hfree : tp.Free (st.pool.allocate.1 :: ptrs (.node bf a sub)))
    (hperm : (ptrs T).Perm (st.pool.allocate.1 :: ptrs (sub s))) (hT : T.Avl)
    (hheight : T.height = (sub s).height + b.toNat) (hskew : b → T.Skewed)
    (hleaf : sub s = .nil →
      (T, b) = (.node .even (st.pool.allocate.1, State.newItem st.targetItem) fun _ => .nil, true))
    (hrec : sub s ≠ .nil → ∃ h₁, recur (.sub a.1 s) st = some (st.added h₁ b) ∧
      Becomes st.heap h₁ (.sub a.1 s) (sub s) T (Function.update ends s.other a.1)) :
    ∃ h₁, st.addSide recur s tp a.1 =
        some (st.added h₁ (AvlTree.grow s bf a sub T b).2) ∧
      Becomes st.heap h₁ tp (.node bf a sub) (AvlTree.grow s bf a sub T b).1 ends := by
  have hperm₁ : (ptrs (.node bf a (Function.update sub s T))).Perm
      (st.pool.allocate.1 :: ptrs (.node bf a sub)) := by
    refine (ptrs_perm s).trans ?_
    rw [Function.update_self, Function.update_of_ne s.other_ne]
    refine ((hperm.append_right _).cons a.1).trans ((List.Perm.swap _ _ _).trans ?_)
    exact ((ptrs_perm s).symm).cons _
  have hnodup₁ : (ptrs (.node bf a (Function.update sub s T))).Nodup :=
    hperm₁.nodup_iff.mpr (List.nodup_cons.mpr ⟨hp, hnodup⟩)
  have hfree₁ := hfree.mono fun q hq => hperm₁.mem_iff.mp hq
  have hstep : ∃ h₁, (if (st.heap.node a.1).thread s then some (st.addLeaf s a.1)
        else recur (.sub a.1 s) st) = some (st.added h₁ b) ∧
      Becomes st.heap h₁ tp (.node bf a sub) (.node bf a (Function.update sub s T)) ends := by
    rw [(hrep.2.2 s).1]
    by_cases hnil : sub s = .nil
    · obtain ⟨rfl, rfl⟩ := Prod.mk.inj (hleaf hnil)
      have hne : a.1 ≠ st.pool.allocate.1 :=
        fun heq => hp (heq ▸ (mem_ptrs_node s).mpr (.inl rfl))
      obtain ⟨h₁, hadd, hroot, hnew, hup, hrest⟩ := addLeaf_eq (s := s) rfl hne
      rw [hnil]
      exact ⟨h₁, congrArg some hadd, becomes_leaf hrep hget hnodup hnil hp hroot hnew hup hrest⟩
    · obtain ⟨h₁, hrec, hbecomes⟩ := hrec hnil
      obtain ⟨-, -, has, hao, hdisjoint⟩ := (nodup_node s).mp hnodup₁
      rw [Function.update_self] at has hdisjoint
      rw [Function.update_of_ne s.other_ne] at hdisjoint
      have hT' : T ≠ .nil := by
        rintro rfl
        exact absurd hperm.symm.eq_nil (List.cons_ne_nil _ _)
      rw [isNil_of_ne hnil]
      exact ⟨h₁, hrec, hbecomes.up hrep hget hnodup hnil hT' has
        fun q hq hqT => hdisjoint q hqT hq⟩
  obtain ⟨h₁, hstep, hbecomes⟩ := hstep
  rw [State.addSide, hstep]
  -- the balance field is put right only when the subtree grew
  cases b with
  | false => exact ⟨h₁, rfl, hbecomes⟩
  | true =>
      have hget₁ := hbecomes.get (hfree.mono fun q hq => List.mem_cons_of_mem _ hq) hfree₁
      obtain ⟨hgrew, hgrow⟩ := becomes_growAt hbecomes.rep hget₁ hnodup₁ hfree₁
        fun hbf => AvlTree.exists_grown havl hT hheight (hskew rfl) hbf
      refine ⟨(h₁.growAt s tp a.1).1, ?_, hbecomes.trans hgrow ?_⟩
      · rw [← hgrew]
        rfl
      · exact ptrs_congr (AvlTree.toList_grow ..)

/-- `_avl_add` with a new key is `insert`. -/
theorem avlAddAt_new (hrep : Rep st.heap.node T ends) (hne : T ≠ .nil)
    (hget : st.heap.get tp = rootOr 0 T) (hnodup : (ptrs T).Nodup) (havl : T.Avl)
    (hp : st.pool.allocate.1 ∉ ptrs T) (hfree : tp.Free (st.pool.allocate.1 :: ptrs T))
    (hkey : ∀ c ∈ T.toList, keyOf c ≠ st.targetItem) (hsorted : T.Sorted keyOf)
    (hfuel : T.height ≤ fuel) :
    let r := AvlTree.insert keyOf (st.pool.allocate.1, State.newItem st.targetItem) T
    ∃ h₁, State.avlAddAt fuel tp st = some (st.added h₁ r.2) ∧
      Becomes st.heap h₁ tp T r.1 ends := by
  induction T generalizing tp ends fuel with
  | nil => exact absurd rfl hne
  | node bf a sub ih =>
      obtain ⟨f, rfl, hsubfuel⟩ := exists_fuel hfuel
      let new := (st.pool.allocate.1, State.newItem st.targetItem)
      have hside : ∀ s, ∃ h₁, st.addSide (State.avlAddAt f) s tp a.1 =
          some (st.added h₁ (AvlTree.grow s bf a sub (AvlTree.insert keyOf new (sub s)).1
            (AvlTree.insert keyOf new (sub s)).2).2) ∧
          Becomes st.heap h₁ tp (.node bf a sub)
            (AvlTree.grow s bf a sub (AvlTree.insert keyOf new (sub s)).1
              (AvlTree.insert keyOf new (sub s)).2).1 ends := by
        intro s
        obtain ⟨hnodups, -, has, -, -⟩ := (nodup_node s).mp hnodup
        obtain ⟨havls, hheight, hskew⟩ :=
          AvlTree.insert_avl keyOf new ((AvlTree.avl_node s).mp havl).1
        have hmem : ∀ q, q ∈ ptrs (sub s) → q ∈ ptrs (.node bf a sub) :=
          fun q hq => (mem_ptrs_node s).mpr (.inr (.inl hq))
        have hps : st.pool.allocate.1 ∉ ptrs (sub s) := fun h => hp (hmem _ h)
        have hkeys : ∀ c ∈ (sub s).toList, keyOf c ≠ st.targetItem := by
          intro c hc
          refine hkey c (AvlTree.mem_node.mpr ?_)
          cases s with
          | left => exact .inl hc
          | right => exact .inr (.inr hc)
        obtain ⟨l₁, l₂, hsplit, hlist, -, -⟩ :=
          AvlTree.toList_insert new (hsorted.subtree s) hkeys
        have hperm : (ptrs (AvlTree.insert keyOf new (sub s)).1).Perm
            (st.pool.allocate.1 :: ptrs (sub s)) := by
          rw [ptrs, hlist, ptrs, hsplit]
          exact List.perm_middle.map Prod.fst
        refine addSide_new hrep hget hnodup havl hp hfree hperm havls hheight hskew
          (fun hnil => by rw [hnil]; rfl) fun hnes => ?_
        obtain ⟨hthread, hlink, hsub⟩ := hrep.2.2 s
        refine ih s hsub hnes (hlink.trans (rootOr_of_ne hnes _ _)) hnodups
          ((AvlTree.avl_node s).mp havl).1 hps ?_ hkeys (hsorted.subtree s) (hsubfuel s)
        refine List.not_mem_cons_of_ne_of_not_mem (fun heq => hp ?_) has
        exact heq ▸ (mem_ptrs_node s).mpr (.inl rfl)
      rw [State.avlAddAt, hget, rootOr, hrep.1, AvlTree.insert]
      have hneq : st.targetItem ≠ a.2.citem :=
        fun heq => hkey a (AvlTree.mem_node.mpr (.inr (.inl rfl))) heq.symm
      rw [if_neg hneq, if_neg (show keyOf new ≠ keyOf a from hneq)]
      by_cases hlt : st.targetItem < a.2.citem
      · rw [if_pos hlt, if_pos (show keyOf new < keyOf a from hlt)]
        exact hside .left
      · rw [if_neg hlt, if_neg (show ¬keyOf new < keyOf a from hlt)]
        exact hside .right

end

/-! ## Ends -/

/-- The outermost node of side `s`. -/
def edge (s : Side) (p : Ptr) : PTree → Ptr
  | .nil => p
  | .node _ a sub => edge s a.1 (sub s)

section

variable {h : Heap} {p q x : Ptr} {fuel : ℕ}

theorem edge_of_ne (hT : T ≠ .nil) (p q : Ptr) : edge s p T = edge s q T := by
  cases T with
  | nil => exact absurd rfl hT
  | node bf a sub => rfl

theorem edge_mem (hT : T ≠ .nil) : edge s p T ∈ ptrs T := by
  induction T generalizing p with
  | nil => exact absurd rfl hT
  | node bf a sub ih =>
      rw [edge, mem_ptrs_node s]
      by_cases hnil : sub s = .nil
      · rw [hnil]
        exact .inl rfl
      · exact .inr (.inl (ih s hnil))

theorem extreme_eq (hrep : Rep h.node T ends) (hT : T ≠ .nil) (hfuel : T.height ≤ fuel) :
    h.extreme s fuel (rootOr p T) = some (edge s p T) := by
  induction T generalizing ends fuel p with
  | nil => exact absurd rfl hT
  | node bf a sub ih =>
      obtain ⟨f, rfl, hsubfuel⟩ := exists_fuel hfuel
      obtain ⟨hthread, hlink, hsub⟩ := hrep.2.2 s
      rw [Heap.extreme, rootOr, hthread, hlink, edge]
      by_cases hnil : sub s = .nil
      · rw [hnil]
        rfl
      · rw [isNil_of_ne hnil, rootOr_of_ne hnil _ a.1]
        exact ih s hsub hnil (hsubfuel s)

/-- The thread at one end leads somewhere else. -/
theorem rep_setEnd (hrep : Rep h.node T ends) (hT : T ≠ .nil) (hnodup : (ptrs T).Nodup)
    (x : Ptr) : (h.node (edge s p T)).thread s = true ∧ (h.node (edge s p T)).sub s = ends s ∧
      Rep (h.setSub (edge s p T) s x).node T (Function.update ends s x) := by
  induction T generalizing ends p with
  | nil => exact absurd rfl hT
  | node bf a sub ih =>
      obtain ⟨hitem, hbf, hsub⟩ := hrep
      obtain ⟨hthread, hlink, hreps⟩ := hsub s
      obtain ⟨hthreado, hlinko, hrepo⟩ := hsub s.other
      obtain ⟨hnodups, -, has, hao, hdisjoint⟩ := (nodup_node s).mp hnodup
      rw [edge]
      by_cases hnil : sub s = .nil
      · rw [hnil] at hthread hlink ⊢
        rw [edge]
        have hroot := Heap.put_sub_self (h := h) (p := a.1) (s := s) (q := x)
        refine ⟨hthread, hlink, (congrArg Node.item hroot).trans hitem,
          (congrArg Node.bf hroot).trans hbf, fun s' => ?_⟩
        have hput : h.setSub a.1 s x = h.put (.sub a.1 s) x := rfl
        rw [hput, hroot]
        dsimp only
        obtain rfl | rfl := s.eq_or_eq_other s'
        · rw [hnil, Function.update_self, Function.update_self]
          exact ⟨hthread, rfl, trivial⟩
        · rw [Function.update_of_ne s.other_ne, Function.update_of_ne s.other_ne, Side.other_other,
            Function.update_idem]
          rw [Side.other_other] at hrepo
          exact ⟨hthreado, hlinko, rep_congr hrepo fun q hq =>
            Heap.put_sub_of_ne fun heq => hao (heq ▸ hq)⟩
      · obtain ⟨hend, hlast, hchanged⟩ := ih s hreps hnil hnodups (p := a.1)
        rw [Function.update_of_ne s.ne_other] at hlast
        have hmem : edge s a.1 (sub s) ∈ ptrs (sub s) := edge_mem hnil
        have hput : h.setSub (edge s a.1 (sub s)) s x =
          h.put (.sub (edge s a.1 (sub s)) s) x := rfl
        have hroot : (h.setSub (edge s a.1 (sub s)) s x).node a.1 = h.node a.1 :=
          hput ▸ Heap.put_sub_of_ne fun heq => has (heq ▸ hmem)
        refine ⟨hend, hlast, (congrArg Node.item hroot).trans hitem,
          (congrArg Node.bf hroot).trans hbf, fun s' => ?_⟩
        rw [hroot]
        obtain rfl | rfl := s.eq_or_eq_other s'
        · rw [Function.update_comm s'.ne_other]
          exact ⟨hthread, hlink.trans (rootOr_of_ne hnil _ _), hchanged⟩
        · rw [Function.update_of_ne s.other_ne, Side.other_other, Function.update_idem]
          rw [Side.other_other] at hrepo
          refine ⟨hthreado, hlinko, rep_congr hrepo fun q hq => ?_⟩
          exact hput ▸ Heap.put_sub_of_ne fun heq => hdisjoint _ hmem (heq ▸ hq)

end

/-! ## `avl_del` -/

/-- In memory the tree `T` at `tp` has become `T₁`, which may be empty. -/
structure Loses (h h₁ : Heap) (tp : Loc) (T T₁ : PTree) (ends : Side → Ptr) : Prop where
  rep : Rep h₁.node T₁ ends
  node : ∀ q ∉ ptrs T, tp.Free [q] → h₁.node q = h.node q
  place : ∀ p s, tp = .sub p s → h₁.node p = (h.node p).link s (ends s) T₁
  root : h₁.root = if tp = .root then rootOr h.root T₁ else h.root

/-- The first arguments of `_avl_del`: the parent, and where it has the pointer to the node. -/
structure Parent (h : Heap) (par : Ptr) (tp : Loc) (T : PTree) (ends : Side → Ptr) : Prop where
  free : tp.Free (ptrs T)
  ends : ∀ s, ends s ∉ ptrs T
  place : tp = .root ∧ par = rootOr 0 T ∨ ∃ s, tp = .sub par s ∧ (h.node par).thread s = false ∧
    (s = .right → (h.node par).sub .left ∉ ptrs T)

section

variable {h h₁ h₂ : Heap} {par p q : Ptr} {tp : Loc} {T₁ T₂ : PTree} {fuel : ℕ}

/-- Nothing else changes when a smaller tree stays. -/
theorem Becomes.loses (hb : Becomes h h₁ tp T T₁ ends) (hpar : Parent h par tp T ends)
    (hT : T₁ ≠ .nil) (hsub : ∀ q ∈ ptrs T₁, q ∈ ptrs T) : Loses h h₁ tp T T₁ ends where
  rep := hb.rep
  node := by
    intro q hq hfree
    rw [hb.node q hq fun hmem => hq (hsub q hmem)]
    exact put_node hfree (List.mem_singleton_self q)
  place := by
    rintro p s rfl
    have hp : p ∉ ptrs T := hpar.free
    obtain ⟨heq, -⟩ | ⟨s', heq, hthread, -⟩ := hpar.place
    · cases heq
    · obtain ⟨rfl, rfl⟩ := Loc.sub.inj heq
      rw [hb.node p hp fun hmem => hp (hsub p hmem), Heap.put_sub_self, link_eq hthread hT]
  root := by
    rw [hb.root]
    cases tp with
    | root => exact (rootOr_of_ne hT _ _).trans (if_pos rfl).symm
    | sub p s => exact (if_neg fun heq => (by cases heq)).symm

/-- A subtree lost a node, so the tree did. -/
theorem Loses.up (hrep : Rep h.node (.node bf a sub) ends) (hget : h.get tp = a.1)
    (hnodup : (ptrs (.node bf a sub)).Nodup)
    (hl : Loses h h₁ (.sub a.1 s) (sub s) T₁ (Function.update ends s.other a.1)) :
    Becomes h h₁ tp (.node bf a sub) (.node bf a (Function.update sub s T₁)) ends := by
  obtain ⟨-, -, has, hao, hdisjoint⟩ := (nodup_node s).mp hnodup
  have hroot := hl.place a.1 s rfl
  rw [Function.update_of_ne s.ne_other] at hroot
  have hnode : ∀ q, q ≠ a.1 → q ∉ ptrs (sub s) → h₁.node q = h.node q :=
    fun q hq hqs => hl.node q hqs fun hmem => hq (List.mem_singleton.mp hmem).symm
  constructor
  · exact rep_replace hrep hl.rep hroot fun q hq =>
      hnode q (fun heq => hao (heq ▸ hq)) fun hqs => hdisjoint q hqs hq
  · intro q hq _
    rw [rootOr, ← hget, put_get]
    rw [mem_ptrs_node s, not_or, not_or] at hq
    exact hnode q hq.1 hq.2.1
  · rw [rootOr, ← hget, put_get, hl.root]
    exact if_neg fun heq => (by cases heq)

/-- A leaf goes. -/
theorem loses_leaf {st : State} (hrep : Rep st.heap.node (.node bf a sub) ends)
    (hget : st.heap.get tp = a.1) (hpar : Parent st.heap par tp (.node bf a sub) ends)
    (hnil : ∀ s, sub s = .nil) :
    ∃ h₁, st.delLeaf par a.1 = { st with heap := h₁, foundNode := a.1, needRebalancing := true } ∧
      Loses st.heap h₁ tp (.node bf a sub) .nil ends := by
  refine ⟨_, rfl, ?_⟩
  have hlink : ∀ s, (st.heap.node a.1).sub s = ends s := by
    intro s
    rw [(hrep.2.2 s).2.1, hnil, rootOr]
  have hmem : a.1 ∈ ptrs (.node bf a sub) := (mem_ptrs_node .left).mpr (.inl rfl)
  obtain ⟨rfl, rfl⟩ | ⟨s, rfl, -, hside⟩ := hpar.place
  · rw [rootOr, if_neg (fun heq => hpar.ends .left (by rw [← hlink, ← heq]; exact hmem))]
    refine ⟨trivial, fun q hq _ => ?_, fun _ _ heq => (by cases heq), rfl⟩
    have hq : q ≠ a.1 := fun heq => hq (heq ▸ hmem)
    exact (Heap.put_sub_of_ne hq).trans (Heap.modify_of_ne _ hq)
  · have hne : a.1 ≠ par := fun heq => hpar.free (heq ▸ hmem)
    have hset : ∀ s, ((st.heap.setThread par s true).setSub par s
        ((st.heap.node a.1).sub s)).node par = (st.heap.node par).link s (ends s) .nil := by
      intro s
      rw [Heap.setSub, Heap.modify_self, Heap.setThread, Heap.modify_self, hlink]
      rfl
    have hrest : ∀ s, ∀ q ∉ ptrs (.node bf a sub), (Loc.sub par s).Free [q] →
        ((st.heap.setThread par s true).setSub par s ((st.heap.node a.1).sub s)).node q =
          st.heap.node q := by
      intro s q _ hq
      have hq : q ≠ par := fun heq => hq (heq ▸ List.mem_singleton_self q)
      exact (Heap.put_sub_of_ne hq).trans (Heap.modify_of_ne _ hq)
    have hplace : (if a.1 = (st.heap.node par).sub .left then
          (st.heap.setThread par .left true).setSub par .left ((st.heap.node a.1).sub .left)
        else (st.heap.setThread par .right true).setSub par .right ((st.heap.node a.1).sub .right)) =
        (st.heap.setThread par s true).setSub par s ((st.heap.node a.1).sub s) := by
      cases s with
      | left => exact if_pos hget.symm
      | right =>
          exact if_neg fun heq : a.1 = (st.heap.node par).sub .left => hside rfl (heq ▸ hmem)
    rw [hplace]
    refine ⟨trivial, hrest s, fun p s' heq => ?_, (if_neg fun heq => (by cases heq)).symm⟩
    obtain ⟨rfl, rfl⟩ := Loc.sub.inj heq
    exact hset s

/-- A node with one subtree goes. -/
theorem loses_one {st : State} {e : Side} (hrep : Rep st.heap.node (.node bf a sub) ends)
    (hnodup : (ptrs (.node bf a sub)).Nodup) (hpar : Parent st.heap par tp (.node bf a sub) ends)
    (hzero : 0 ∉ ptrs (.node bf a sub)) (hnil : sub e = .nil) (hne : sub e.other ≠ .nil)
    (hfuel : (sub e.other).height ≤ fuel) :
    ∃ h₁, st.delOne fuel e tp a.1 =
        some { st with heap := h₁, foundNode := a.1, needRebalancing := true } ∧
      Loses st.heap h₁ tp (.node bf a sub) (sub e.other) ends := by
  obtain ⟨-, hlink, -⟩ := hrep.2.2 e
  obtain ⟨hthreado, hlinko, hrepo⟩ := hrep.2.2 e.other
  obtain ⟨-, hnodupo, -, hao, -⟩ := (nodup_node e).mp hnodup
  have hmem : ∀ q ∈ ptrs (sub e.other), q ∈ ptrs (.node bf a sub) :=
    fun q hq => (mem_ptrs_node e).mpr (.inr (.inr hq))
  let n := edge e 0 (sub e.other)
  have hn : n ∈ ptrs (sub e.other) := edge_mem hne
  have hnext : st.heap.avlNext e.other fuel a.1 = some n := by
    rw [Heap.avlNext, hthreado, isNil_of_ne hne, hlinko, Side.other_other,
      if_neg Bool.false_ne_true, extreme_eq hrepo hne hfuel]
    exact congrArg some (edge_of_ne hne _ _)
  rw [hnil, rootOr] at hlink
  obtain ⟨hend, -, hset⟩ := rep_setEnd (p := 0) hrepo hne hnodupo (ends e)
  rw [Side.other_other, Function.update_idem, Function.update_eq_self] at hset
  have hrest : ∀ q, q ≠ n → (st.heap.setSub n e (ends e)).node q = st.heap.node q :=
    fun q hq => Heap.put_sub_of_ne hq
  have hroot : ((st.heap.setSub n e (ends e)).node a.1).sub e.other = rootOr 0 (sub e.other) := by
    have hna : a.1 ≠ n := fun heq => hao (heq ▸ hn)
    rw [hrest _ hna, hlinko, rootOr_of_ne hne]
  refine ⟨(st.heap.setSub n e (ends e)).put tp (rootOr 0 (sub e.other)), ?_, ?_⟩
  · rw [State.delOne, hnext, Option.bind_eq_bind, Option.bind_some,
      if_pos ⟨fun heq => hzero (hmem 0 (heq ▸ hn)), hend⟩, hlink]
    dsimp only
    rw [hroot]
  · refine (becomes_put (h := st.heap) hset hmem hpar.free fun q hq => ?_).loses hpar hne hmem
    exact hrest q fun heq => hq (hmem q (heq ▸ hn))

/-- One way down and up of `_avl_del`. -/
theorem delSide_step {st st₁ : State} {recur : Loc → State → Option State} {b : Bool}
    (hrep : Rep st.heap.node (.node bf a sub) ends) (hget : st.heap.get tp = a.1)
    (hnodup : (ptrs (.node bf a sub)).Nodup) (havl : (AvlTree.node bf a sub).Avl)
    (hpar : Parent st.heap par tp (.node bf a sub) ends) (hne : sub s ≠ .nil)
    (hrec : recur (.sub a.1 s) st = some st₁) (hneed : st₁.needRebalancing = b)
    (hl : Loses st.heap st₁.heap (.sub a.1 s) (sub s) T₁ (Function.update ends s.other a.1))
    (hsub : (ptrs T₁).Sublist (ptrs (sub s))) :
    ∃ h₂, st.delSide recur s tp a.1 = some { st₁ with
        heap := h₂, needRebalancing := (AvlTree.shrink s bf a sub T₁ b).2 } ∧
      Loses st.heap h₂ tp (.node bf a sub) (AvlTree.shrink s bf a sub T₁ b).1 ends := by
  obtain ⟨hnodups, hnodupo, has, hao, hdisjoint⟩ := (nodup_node s).mp hnodup
  have hmem₁ : ∀ q ∈ ptrs (.node bf a (Function.update sub s T₁)), q ∈ ptrs (.node bf a sub) := by
    intro q hq
    rw [mem_ptrs_node s, Function.update_self, Function.update_of_ne s.other_ne] at hq
    rw [mem_ptrs_node s]
    exact hq.imp_right (Or.imp_left fun hq => hsub.subset hq)
  have hnodup₁ : (ptrs (.node bf a (Function.update sub s T₁))).Nodup := by
    rw [nodup_node s, Function.update_self, Function.update_of_ne s.other_ne]
    exact ⟨hnodups.sublist hsub, hnodupo, fun hq => has (hsub.subset hq), hao,
      fun q hq => hdisjoint q (hsub.subset hq)⟩
  have hup := hl.up hrep hget hnodup
  have hfree₁ := hpar.free.mono hmem₁
  have hptrs := ptrs_congr (AvlTree.toList_shrink s bf a sub T₁ b)
  have hresult : (AvlTree.shrink s bf a sub T₁ b).1 ≠ .nil := by
    refine ne_nil_of_mem (c := a) ?_
    rw [AvlTree.toList_shrink]
    exact AvlTree.mem_node.mpr (.inr (.inl rfl))
  rw [State.delSide, (hrep.2.2 s).1, isNil_of_ne hne, if_neg Bool.false_ne_true, hrec,
    Option.map_some]
  dsimp only
  rw [hneed]
  cases b with
  | false =>
      have hsame : st₁ = { st₁ with needRebalancing := false } := by rw [← hneed]
      refine ⟨st₁.heap, congrArg some hsame, hup.loses hpar hresult fun q hq => hmem₁ q (hptrs ▸ hq)⟩
  | true =>
      obtain ⟨hshrank, hshrink⟩ := becomes_shrinkAt hup.rep (hup.get hpar.free hfree₁) hnodup₁ hfree₁
        fun hbf => AvlTree.exists_sibling havl hbf
      refine ⟨(st₁.heap.shrinkAt s tp a.1).1, by rw [← hshrank]; rfl, ?_⟩
      exact (hup.trans hshrink hptrs).loses hpar hresult fun q hq => hmem₁ q (hptrs ▸ hq)

/-- The node above a subtree is its parent. -/
theorem Parent.child (hrep : Rep h.node (.node bf a sub) ends)
    (hnodup : (ptrs (.node bf a sub)).Nodup) (hends : ∀ s, ends s ∉ ptrs (.node bf a sub))
    (hne : sub s ≠ .nil) :
    Parent h a.1 (.sub a.1 s) (sub s) (Function.update ends s.other a.1) := by
  obtain ⟨-, -, has, hao, hdisjoint⟩ := (nodup_node s).mp hnodup
  have hends' : ∀ s', ends s' ∉ ptrs (sub s) :=
    fun s' hmem => hends s' ((mem_ptrs_node s).mpr (.inr (.inl hmem)))
  refine ⟨has, fun s' => ?_, .inr ⟨s, rfl, ?_, ?_⟩⟩
  · obtain rfl | hne := eq_or_ne s' s.other
    · rwa [Function.update_self]
    · rw [Function.update_of_ne hne]
      exact hends' s'
  · rw [(hrep.2.2 s).1, isNil_of_ne hne]
  · rintro rfl
    rw [(hrep.2.2 .left).2.1]
    by_cases hnil : sub .left = .nil
    · rw [hnil]
      exact hends' .left
    · obtain ⟨b, c, subc, hc⟩ := AvlTree.ne_nil_iff.mp hnil
      have hmem : c.1 ∈ ptrs (sub .left) := hc ▸ (mem_ptrs_node .left).mpr (.inl rfl)
      rw [hc]
      exact fun hq => hdisjoint _ hq hmem

theorem ptrs_eraseLast (T : PTree) : (ptrs (AvlTree.eraseLast T).1).Sublist (ptrs T) := by
  by_cases hT : T = .nil
  · rw [hT]
    exact List.Sublist.refl _
  · obtain ⟨b, c, subc, rfl⟩ := AvlTree.ne_nil_iff.mp hT
    rw [ptrs, ptrs, AvlTree.toList_eraseLast (b := c) hT]
    exact (List.sublist_append_left _ _).map _

/-- `_avl_del` once the item is found takes out the last node. -/
theorem avlDelAt_last {st : State} (hrep : Rep st.heap.node T ends) (hT : T ≠ .nil)
    (hget : st.heap.get tp = rootOr 0 T) (hnodup : (ptrs T).Nodup) (havl : T.Avl)
    (hpar : Parent st.heap par tp T ends) (hzero : 0 ∉ ptrs T) (hfound : st.alreadyFound = true)
    (hfuel : T.height ≤ fuel) :
    ∃ h₁, State.avlDelAt fuel par tp st = some { st with
        heap := h₁, foundNode := edge .right 0 T, needRebalancing := (AvlTree.eraseLast T).2 } ∧
      Loses st.heap h₁ tp T (AvlTree.eraseLast T).1 ends := by
  induction T generalizing tp ends fuel par with
  | nil => exact absurd rfl hT
  | node bf a sub ih =>
      obtain ⟨f, rfl, hsubfuel⟩ := exists_fuel hfuel
      have hl := (hrep.2.2 .left).1
      have hr := (hrep.2.2 .right).1
      rw [State.avlDelAt, hget, rootOr, AvlTree.eraseLast, edge]
      dsimp only
      rw [if_pos hfound]
      -- the way goes to the right until there is no subtree on that side
      by_cases hright : sub .right = .nil
      · rw [hright] at hr ⊢
        have hr : (st.heap.node a.1).thread .right = true := hr
        rw [hr, if_pos rfl]
        dsimp only
        by_cases hleft : sub .left = .nil
        · have hnil : ∀ s, sub s = .nil := fun s => by cases s <;> assumption
          rw [hleft] at hl ⊢
          have hl : (st.heap.node a.1).thread .left = true := hl
          rw [hl]
          obtain ⟨h₁, hdel, hloses⟩ := loses_leaf hrep hget hpar hnil
          exact ⟨h₁, congrArg some hdel, hloses⟩
        · rw [hl, isNil_of_ne hleft]
          exact loses_one hrep hnodup hpar hzero hright hleft (hsubfuel .left)
      · rw [hr, isNil_of_ne hright, if_neg Bool.false_ne_true, if_neg Bool.false_ne_true]
        dsimp only
        obtain ⟨hthread, hlink, hreps⟩ := hrep.2.2 .right
        have hgetr : st.heap.get (.sub a.1 .right) = rootOr 0 (sub .right) :=
          hlink.trans (rootOr_of_ne hright _ _)
        obtain ⟨h₁, hrec, hloses⟩ := ih .right hreps hright hgetr
          ((nodup_node .right).mp hnodup).1 ((AvlTree.avl_node .right).mp havl).1
          (Parent.child hrep hnodup hpar.ends hright)
          (fun hmem => hzero ((mem_ptrs_node .right).mpr (.inr (.inl hmem)))) (hsubfuel .right)
        obtain ⟨h₂, hdel, hloses⟩ := delSide_step hrep hget hnodup havl hpar hright hrec rfl hloses
          (ptrs_eraseLast _)
        rw [edge_of_ne hright a.1 0]
        exact ⟨h₂, hdel, hloses⟩

theorem rep_item {node : Ptr → Node} {c : Ptr × Item} (hrep : Rep node T ends)
    (hc : c ∈ T.toList) : (node c.1).item = c.2 := by
  induction T generalizing ends with
  | nil => exact absurd hc List.not_mem_nil
  | node bf a sub ih =>
      obtain hc | rfl | hc := AvlTree.mem_node.mp hc
      · exact ih .left (hrep.2.2 .left).2.2 hc
      · exact hrep.1
      · exact ih .right (hrep.2.2 .right).2.2 hc

theorem last_fst (b : Ptr × Item) (T : PTree) : (T.last b).1 = edge .right b.1 T := by
  induction T generalizing b with
  | nil => rfl
  | node bf a sub ih => exact ih .right a

/-- An absent key changes nothing. -/
theorem avlDelAt_absent {st : State} (hrep : Rep st.heap.node T ends) (hT : T ≠ .nil)
    (hget : st.heap.get tp = rootOr 0 T) (hkey : ∀ c ∈ T.toList, keyOf c ≠ st.targetItem)
    (hfound : st.alreadyFound = false) (hneed : st.needRebalancing = false)
    (hfuel : T.height ≤ fuel) : State.avlDelAt fuel par tp st = some st := by
  induction T generalizing tp ends fuel par with
  | nil => exact absurd rfl hT
  | node bf a sub ih =>
      obtain ⟨f, rfl, hsubfuel⟩ := exists_fuel hfuel
      have hside : ∀ s, st.delSide (State.avlDelAt f a.1) s tp a.1 = some st := by
        intro s
        obtain ⟨hthread, hlink, hreps⟩ := hrep.2.2 s
        rw [State.delSide, hthread]
        by_cases hnil : sub s = .nil
        · rw [hnil]
          rfl
        · rw [isNil_of_ne hnil, if_neg Bool.false_ne_true]
          have hgets : st.heap.get (.sub a.1 s) = rootOr 0 (sub s) :=
            hlink.trans (rootOr_of_ne hnil _ _)
          have hrec : State.avlDelAt f a.1 (.sub a.1 s) st = some st :=
            ih s hreps hnil hgets (fun c hc => hkey c ?_) (hsubfuel s)
          · rw [hrec, Option.map_some, hneed]
            rfl
          · cases s with
            | left => exact AvlTree.mem_node.mpr (.inl hc)
            | right => exact AvlTree.mem_node.mpr (.inr (.inr hc))
      rw [State.avlDelAt, hget, rootOr]
      dsimp only
      rw [hfound, if_neg Bool.false_ne_true, hrep.1]
      have hne : compare st.targetItem a.2.citem ≠ .eq := fun heq =>
        hkey a (AvlTree.mem_node.mpr (.inr (.inl rfl))) (compare_eq_iff_eq.mp heq).symm
      cases hcmp : compare st.targetItem a.2.citem with
      | lt => exact hside .left
      | gt => exact hside .right
      | eq => exact absurd hcmp hne

/-- The place of the first with the item of the second. -/
def giveItem (a b : Ptr × Item) : Ptr × Item := (a.1, b.2)

/-- The node that goes. -/
def goneNode : (Ptr × Item) × Option (Ptr × Item) → Ptr
  | (c, none) => c.1
  | (_, some d) => d.1

/-- The chains after a node takes over an item. -/
def goneChains (chains : Chains) : (Ptr × Item) × Option (Ptr × Item) → Chains
  | (_, none) => chains
  | (c, some d) => chains.copy d.1 c.1

theorem ptrs_give (b : Ptr × Item) :
    ptrs (.node bf (giveItem a b) sub) = ptrs (.node bf a sub) := by
  rw [ptrs_node, ptrs_node, giveItem]

theorem last_mem {b : Ptr × Item} (hT : T ≠ .nil) : T.last b ∈ T.toList := by
  rw [AvlTree.toList_eraseLast (b := b) hT]
  exact List.mem_append_right _ (List.mem_singleton_self _)

/-- The root gets another item. -/
theorem rep_setItem (hrep : Rep h.node (.node bf a sub) ends)
    (hnodup : (ptrs (.node bf a sub)).Nodup) (b : Ptr × Item) :
    Rep (h.setItem a.1 b.2).node (.node bf (giveItem a b) sub) ends := by
  obtain ⟨-, hbf, hsub⟩ := hrep
  have hroot := Heap.modify_self (h := h) (p := a.1) fun n => { n with item := b.2 }
  refine ⟨congrArg Node.item hroot, (congrArg Node.bf hroot).trans hbf, fun s => ?_⟩
  obtain ⟨hthread, hlink, hsub⟩ := hsub s
  refine ⟨(congrArg (Node.thread · s) hroot).trans hthread,
    (congrArg (Node.sub · s) hroot).trans hlink, rep_congr hsub fun q hq => ?_⟩
  exact Heap.modify_of_ne _ fun heq => ((nodup_node s).mp hnodup).2.2.1 (heq ▸ hq)

theorem Parent.setItem (hpar : Parent h par tp (.node bf a sub) ends) (b : Ptr × Item) :
    Parent (h.setItem a.1 b.2) par tp (.node bf (giveItem a b) sub) ends := by
  obtain ⟨hfree, hends, hplace⟩ := hpar
  rw [← ptrs_give b] at hfree
  refine ⟨hfree, fun s => by rw [ptrs_give]; exact hends s, hplace.imp_right ?_⟩
  rintro ⟨s, rfl, hthread, hside⟩
  have hne : par ≠ a.1 := fun heq => hfree ((mem_ptrs_node .left).mpr (.inl heq))
  have hnode : (h.setItem a.1 b.2).node par = h.node par := Heap.modify_of_ne _ hne
  rw [hnode, ptrs_give]
  exact ⟨s, rfl, hthread, hside⟩

theorem Loses.of_setItem {b : Ptr × Item} (hpar : Parent h par tp (.node bf a sub) ends)
    (hl : Loses (h.setItem a.1 b.2) h₁ tp (.node bf (giveItem a b) sub) T₁ ends) :
    Loses h h₁ tp (.node bf a sub) T₁ ends := by
  have hnode : ∀ q ∉ ptrs (.node bf a sub), (h.setItem a.1 b.2).node q = h.node q :=
    fun q hq => Heap.modify_of_ne _ fun heq => hq ((mem_ptrs_node .left).mpr (.inl heq))
  refine ⟨hl.rep, fun q hq hfree => ?_, fun p s heq => ?_, hl.root⟩
  · rw [hl.node q (by rwa [ptrs_give]) hfree, hnode q hq]
  · subst heq
    rw [hl.place p s rfl, hnode p hpar.free]

/-- A node with two subtrees takes over the item before it. -/
theorem loses_two {st : State} (hrep : Rep st.heap.node (.node bf a sub) ends)
    (hget : st.heap.get tp = a.1) (hnodup : (ptrs (.node bf a sub)).Nodup)
    (havl : (AvlTree.node bf a sub).Avl) (hpar : Parent st.heap par tp (.node bf a sub) ends)
    (hzero : 0 ∉ ptrs (.node bf a sub)) (hleft : sub .left ≠ .nil)
    (hfuel : (sub .left).height ≤ fuel) :
    let r := AvlTree.shrink .left bf (giveItem a ((sub .left).last a)) sub
      (AvlTree.eraseLast (sub .left)).1 (AvlTree.eraseLast (sub .left)).2
    ∃ h₁, (st.heap.avlPred fuel a.1).bind (fun p =>
        State.delSide (State.avlDelAt fuel a.1) .left tp a.1
          { st.copyNode p a.1 with alreadyFound := true }) =
      some { st with
        heap := h₁
        chains := st.chains.copy ((sub .left).last a).1 a.1
        alreadyFound := true
        foundNode := ((sub .left).last a).1
        needRebalancing := r.2 } ∧
      Loses st.heap h₁ tp (.node bf a sub) r.1 ends := by
  intro r
  set d := (sub .left).last a with hd
  obtain ⟨hthread, hlink, hrepl⟩ := hrep.2.2 .left
  have hpred : st.heap.avlPred fuel a.1 = some d.1 := by
    rw [Heap.avlPred, Heap.avlNext, hthread, isNil_of_ne hleft, if_neg Bool.false_ne_true, hlink,
      hd, last_fst, edge_of_ne hleft a.1 0]
    exact (extreme_eq hrepl hleft hfuel).trans (congrArg some (edge_of_ne hleft _ _))
  have hitem : (st.heap.node d.1).item = d.2 := rep_item hrepl (last_mem hleft)
  set st₂ := { st.copyNode d.1 a.1 with alreadyFound := true } with hst₂
  have hheap : st₂.heap = st.heap.setItem a.1 d.2 := by rw [hst₂, ← hitem]; rfl
  have hrep₂ := rep_setItem hrep hnodup d
  have hpar₂ := hpar.setItem d
  have hget₂ : (st.heap.setItem a.1 d.2).get tp = a.1 := by
    have hkeep : (st.heap.setItem a.1 d.2).get tp = st.heap.get tp :=
      get_congr rfl hpar.free fun q hq =>
        Heap.modify_of_ne _ fun heq => hq ((mem_ptrs_node .left).mpr (.inl heq))
    exact hkeep.trans hget
  have hnodup₂ : (ptrs (.node bf (giveItem a d) sub)).Nodup := by rwa [ptrs_give]
  rw [← hheap] at hrep₂ hpar₂ hget₂
  obtain ⟨-, hlink₂, hrepl₂⟩ := hrep₂.2.2 .left
  have hgetl : st₂.heap.get (.sub a.1 .left) = rootOr 0 (sub .left) :=
    hlink₂.trans (rootOr_of_ne hleft _ _)
  obtain ⟨h₁, hrec, hloses⟩ := avlDelAt_last hrepl₂ hleft hgetl ((nodup_node .left).mp hnodup).1
    ((AvlTree.avl_node .left).mp havl).1 (Parent.child (a := giveItem a d) hrep₂ hnodup₂ hpar₂.ends hleft)
    (fun hmem => hzero ((mem_ptrs_node .left).mpr (.inr (.inl hmem)))) rfl hfuel
  obtain ⟨h₂, hdel, hloses⟩ := delSide_step hrep₂ hget₂ hnodup₂ havl hpar₂ hleft hrec rfl hloses
    (ptrs_eraseLast _)
  rw [hheap] at hloses
  refine ⟨h₂, ?_, hloses.of_setItem hpar⟩
  rw [hpred, Option.bind_some]
  refine hdel.trans ?_
  rw [edge_of_ne hleft 0 a.1, ← last_fst]
  rfl

theorem ptrs_erase {c : Ptr × Item} (hsorted : T.Sorted keyOf) (hc : c ∈ T.toList) :
    (ptrs (AvlTree.erase keyOf giveItem (keyOf c) T).1).Sublist (ptrs T) := by
  obtain ⟨l₁, l₂, hsplit, ⟨-, herase⟩ | ⟨l₀, d, rfl, -, herase⟩⟩ :=
    AvlTree.toList_erase (b := c) giveItem hsorted hc
  · rw [ptrs, ptrs, hsplit, herase]
    exact ((List.sublist_cons_self c l₂).append_left l₁).map _
  · rw [ptrs, ptrs, hsplit, herase, List.append_assoc, List.map_append, List.map_append]
    exact (List.sublist_cons_self d.1 _).append_left _

/-- `_avl_del` of a key of the tree is `erase`. -/
theorem avlDelAt_found {st : State} {c : Ptr × Item} (hrep : Rep st.heap.node T ends)
    (hget : st.heap.get tp = rootOr 0 T) (hnodup : (ptrs T).Nodup) (havl : T.Avl)
    (hpar : Parent st.heap par tp T ends) (hzero : 0 ∉ ptrs T) (hsorted : T.Sorted keyOf)
    (hc : c ∈ T.toList) (hkey : keyOf c = st.targetItem) (hfound : st.alreadyFound = false)
    (hfuel : T.height ≤ fuel) :
    let r := AvlTree.erase keyOf giveItem st.targetItem T
    let gone := AvlTree.taken keyOf st.targetItem c T
    ∃ h₁ found, State.avlDelAt fuel par tp st = some { st with
        heap := h₁
        chains := goneChains st.chains gone
        alreadyFound := found
        foundNode := goneNode gone
        needRebalancing := r.2 } ∧
      Loses st.heap h₁ tp T r.1 ends := by
  induction T generalizing tp ends fuel par with
  | nil => exact absurd hc List.not_mem_nil
  | node bf a sub ih =>
      obtain ⟨f, rfl, hsubfuel⟩ := exists_fuel hfuel
      have hside : ∀ s, c ∈ (sub s).toList →
          let r := AvlTree.erase keyOf giveItem st.targetItem (sub s)
          let gone := AvlTree.taken keyOf st.targetItem c (sub s)
          ∃ h₁ found, st.delSide (State.avlDelAt f a.1) s tp a.1 = some { st with
              heap := h₁
              chains := goneChains st.chains gone
              alreadyFound := found
              foundNode := goneNode gone
              needRebalancing := (AvlTree.shrink s bf a sub r.1 r.2).2 } ∧
            Loses st.heap h₁ tp (.node bf a sub) (AvlTree.shrink s bf a sub r.1 r.2).1 ends := by
        intro s hmem
        have hne := ne_nil_of_mem hmem
        obtain ⟨hthread, hlink, hreps⟩ := hrep.2.2 s
        have hgets : st.heap.get (.sub a.1 s) = rootOr 0 (sub s) :=
          hlink.trans (rootOr_of_ne hne _ _)
        obtain ⟨h₁, found, hrec, hloses⟩ := ih s hreps hgets ((nodup_node s).mp hnodup).1
          ((AvlTree.avl_node s).mp havl).1 (Parent.child hrep hnodup hpar.ends hne)
          (fun hmem => hzero ((mem_ptrs_node s).mpr (.inr (.inl hmem)))) (hsorted.subtree s) hmem
          (hsubfuel s)
        obtain ⟨h₂, hdel, hloses⟩ := delSide_step hrep hget hnodup havl hpar hne hrec rfl hloses
          (hkey ▸ ptrs_erase (hsorted.subtree s) hmem)
        exact ⟨h₂, found, hdel, hloses⟩
      rw [State.avlDelAt, hget, rootOr, AvlTree.erase, AvlTree.taken]
      dsimp only
      rw [hfound, if_neg Bool.false_ne_true, hrep.1, show a.2.citem = keyOf a from rfl, ← hkey]
      rw [← hkey] at hside
      by_cases hlt : keyOf c < keyOf a
      · rw [if_pos hlt, if_pos hlt, compare_lt_iff_lt.mpr hlt]
        exact hside .left (hsorted.mem_left hc hlt)
      · by_cases hgt : keyOf a < keyOf c
        · rw [if_neg hlt, if_neg hlt, if_pos hgt, if_pos hgt, compare_gt_iff_gt.mpr hgt]
          exact hside .right (hsorted.mem_right hc hgt)
        · have heq : keyOf c = keyOf a := le_antisymm (not_lt.mp hgt) (not_lt.mp hlt)
          rw [if_neg hlt, if_neg hlt, if_neg hgt, if_neg hgt, compare_eq_iff_eq.mpr heq]
          dsimp only
          have hl := (hrep.2.2 .left).1
          have hr := (hrep.2.2 .right).1
          -- the key is found: four cases, by the subtrees that the node has
          by_cases hleft : sub .left = .nil
          · rw [hleft] at hl
            have hl : (st.heap.node a.1).thread .left = true := hl
            rw [hleft, hl, if_pos rfl, Bool.true_and]
            by_cases hright : sub .right = .nil
            · have hnil : ∀ s, sub s = .nil := fun s => by cases s <;> assumption
              rw [hright] at hr ⊢
              have hr : (st.heap.node a.1).thread .right = true := hr
              rw [if_pos hr]
              obtain ⟨h₁, hdel, hloses⟩ := loses_leaf hrep hget hpar hnil
              exact ⟨h₁, st.alreadyFound, congrArg some (hkey ▸ hdel), hloses⟩
            · rw [hr, isNil_of_ne hright, if_neg Bool.false_ne_true]
              obtain ⟨h₁, hdel, hloses⟩ :=
                loses_one hrep hnodup hpar hzero hleft hright (hsubfuel .right)
              exact ⟨h₁, st.alreadyFound, hkey ▸ hdel, hloses⟩
          · rw [hl, isNil_of_ne hleft, Bool.false_and]
            by_cases hright : sub .right = .nil
            · rw [hright] at hr ⊢
              have hr : (st.heap.node a.1).thread .right = true := hr
              rw [hr]
              obtain ⟨h₁, hdel, hloses⟩ :=
                loses_one hrep hnodup hpar hzero hright hleft (hsubfuel .left)
              exact ⟨h₁, st.alreadyFound, hkey ▸ hdel, hloses⟩
            · rw [hr, isNil_of_ne hright]
              obtain ⟨h₁, hdel, hloses⟩ :=
                loses_two hrep hget hnodup havl hpar hzero hleft (hsubfuel .left)
              exact ⟨h₁, true, hkey ▸ hdel, hloses⟩

end

end Lush.Mirror
