import Lush.Mirror.AvlMap

/-!
# The tree of the C objects is an ordered map

`State.Valid` is the invariant: the nodes in memory are a balanced search tree, the other nodes
are in the free list, and the counter is right.  `run_step` says that every operation of the
program keeps it, and does to the map from the keys to the items what it is meant to do; so does
a run (`runOps_valid`, `runOps_objects`).  In `cside_destroy_range` nodes go while the loop is on
its way: the node that `_avl_del` gives back is the current one or the one before it, never the
next one, to which the loop goes on (`destroyFrom_eq`).
-/

namespace Lush.Mirror

open Lush.Balanced

variable {node node' : Ptr → Node} {bf bt bl : Tilt} {a l : Ptr × Item} {sub subl : Side → PTree}
  {ends : Side → Ptr} {T : PTree} {u s : Side}

/-! ## Searches -/

/-- A node, or else where the thread leads. -/
def place (e : Ptr) : Option (Ptr × Item) → Ptr
  | none => e
  | some a => a.1

theorem append_cons_eq_append {α : Type} {l r L L' : List α} {a : α}
    (h : l ++ a :: r = L ++ L') :
    (∃ M, l = L ++ M ∧ L' = M ++ a :: r) ∨ ∃ M, L = l ++ a :: M ∧ r = M ++ L' := by
  obtain ⟨M, rfl, hM⟩ | ⟨M, rfl, rfl⟩ := List.append_eq_append_iff.mp h
  · obtain ⟨rfl, rfl⟩ | ⟨M, rfl, rfl⟩ := List.cons_eq_append_iff.mp hM
    · exact .inl ⟨[], (List.append_nil _).symm ▸ (List.append_nil _).symm, rfl⟩
    · exact .inr ⟨M, rfl, rfl⟩
  · exact .inl ⟨M, rfl, rfl⟩

section

variable {h : Heap} {p : Ptr} {fuel key : ℕ} {L L' : List (Ptr × Item)}

theorem place_append (e : Ptr) (L L' : List (Ptr × Item)) :
    place e (L ++ a :: L').head? = place a.1 L.head? := by
  cases L <;> rfl

theorem edge_left (p : Ptr) (T : PTree) : edge .left p T = place p T.toList.head? := by
  induction T generalizing p with
  | nil => rfl
  | node bf a sub ih => rw [edge, ih .left, AvlTree.toList, place_append]

/-- The node after the root. -/
theorem avlSucc_root (hrep : Rep h.node (.node bf a sub) ends)
    (hfuel : (sub .right).height ≤ fuel) :
    h.avlSucc fuel a.1 = some (place (ends .right) (sub .right).toList.head?) := by
  obtain ⟨hthread, hlink, hsub⟩ := hrep.2.2 .right
  rw [Heap.avlSucc, Heap.avlNext, hthread, hlink]
  by_cases hnil : sub .right = .nil
  · rw [hnil]
    rfl
  · rw [isNil_of_ne hnil, if_neg Bool.false_ne_true, ← edge_left]
    exact extreme_eq hsub hnil hfuel

/-- `avl_succ` leads to the next node. -/
theorem avlSucc_eq (hrep : Rep h.node T ends) (hlist : T.toList = L ++ a :: L')
    (hfuel : T.height ≤ fuel) : h.avlSucc fuel a.1 = some (place (ends .right) L'.head?) := by
  induction T generalizing ends fuel L L' with
  | nil => exact absurd hlist.symm (List.append_ne_nil_of_right_ne_nil _ (List.cons_ne_nil _ _))
  | node bf b sub ih =>
      have hsubfuel : ∀ s, (sub s).height ≤ fuel := by
        intro s
        rw [AvlTree.height_node s] at hfuel
        omega
      have hendsl : Function.update ends Side.left.other b.1 .right = b.1 := rfl
      have hendsr : Function.update ends Side.right.other b.1 .right = ends .right := rfl
      -- a node on the left is followed by another one there, or by the root
      obtain ⟨M, hleft, hM⟩ | ⟨M, -, hright⟩ := append_cons_eq_append hlist
      · obtain ⟨-, heq⟩ | ⟨M, rfl, rfl⟩ := List.cons_eq_append_iff.mp hM
        · obtain ⟨rfl, rfl⟩ := List.cons.inj heq
          exact avlSucc_root hrep (hsubfuel .right)
        · rw [ih .left (hrep.2.2 .left).2.2 hleft (hsubfuel .left), hendsl, place_append]
      · rw [ih .right (hrep.2.2 .right).2.2 hright (hsubfuel .right), hendsr]

theorem findFrom_found (hrep : Rep h.node T ends) (hsorted : T.Sorted keyOf) {c : Ptr × Item}
    (hc : c ∈ T.toList) (hfuel : T.height ≤ fuel) :
    h.findFrom (keyOf c) fuel (rootOr p T) = some c.1 := by
  induction T generalizing ends fuel p with
  | nil => exact absurd hc List.not_mem_nil
  | node bf a sub ih =>
      obtain ⟨f, rfl, hsubfuel⟩ := exists_fuel hfuel
      have hside : ∀ s, c ∈ (sub s).toList → (h.node a.1).thread s = false ∧
          h.findFrom (keyOf c) f ((h.node a.1).sub s) = some c.1 := by
        intro s hmem
        obtain ⟨hthread, hlink, hsub⟩ := hrep.2.2 s
        rw [hthread, hlink]
        exact ⟨isNil_of_ne (ne_nil_of_mem hmem), ih s hsub (hsorted.subtree s) hmem (hsubfuel s)⟩
      rw [Heap.findFrom, rootOr, hrep.1, show a.2.citem = keyOf a from rfl]
      by_cases hlt : keyOf c < keyOf a
      · obtain ⟨hthread, hfind⟩ := hside .left (hsorted.mem_left hc hlt)
        rw [if_pos hlt, hthread, if_neg Bool.false_ne_true, hfind]
      · by_cases hgt : keyOf a < keyOf c
        · obtain ⟨hthread, hfind⟩ := hside .right (hsorted.mem_right hc hgt)
          rw [if_neg hlt, if_pos hgt, hthread, if_neg Bool.false_ne_true, hfind]
        · rw [if_neg hlt, if_neg hgt]
          obtain hmem | rfl | hmem := AvlTree.mem_node.mp hc
          · exact absurd (hsorted.left_lt hmem) hlt
          · rfl
          · exact absurd (hsorted.lt_right hmem) hgt

theorem findFrom_absent (hrep : Rep h.node T ends) (hT : T ≠ .nil)
    (hkey : ∀ c ∈ T.toList, keyOf c ≠ key) (hfuel : T.height ≤ fuel) :
    h.findFrom key fuel (rootOr p T) = some 0 := by
  induction T generalizing ends fuel p with
  | nil => exact absurd rfl hT
  | node bf a sub ih =>
      obtain ⟨f, rfl, hsubfuel⟩ := exists_fuel hfuel
      have hside : ∀ s, (if (h.node a.1).thread s then some 0
          else h.findFrom key f ((h.node a.1).sub s)) = some 0 := by
        intro s
        obtain ⟨hthread, hlink, hsub⟩ := hrep.2.2 s
        rw [hthread, hlink]
        by_cases hnil : sub s = .nil
        · rw [hnil]
          rfl
        · rw [isNil_of_ne hnil, if_neg Bool.false_ne_true]
          refine ih s hsub hnil (fun c hc => hkey c (AvlTree.mem_node.mpr ?_)) (hsubfuel s)
          cases s with
          | left => exact .inl hc
          | right => exact .inr (.inr hc)
      rw [Heap.findFrom, rootOr, hrep.1, show a.2.citem = keyOf a from rfl]
      by_cases hlt : key < keyOf a
      · rw [if_pos hlt, hside .left]
      · by_cases hgt : keyOf a < key
        · rw [if_neg hlt, if_pos hgt, hside .right]
        · exact absurd (le_antisymm (not_lt.mp hlt) (not_lt.mp hgt))
            (hkey a (AvlTree.mem_node.mpr (.inr (.inl rfl))))

/-- `avl_first` leads to the first node whose key is not smaller. -/
theorem firstFrom_eq (hrep : Rep h.node T ends) (hT : T ≠ .nil) (hsorted : T.Sorted keyOf)
    (hlist : T.toList = L ++ L') (hbefore : ∀ c ∈ L, keyOf c < key)
    (hafter : ∀ c ∈ L', key ≤ keyOf c) (hfuel : T.height ≤ fuel) :
    h.firstFrom key fuel (rootOr p T) = some (place (ends .right) L'.head?) := by
  induction T generalizing ends fuel p L L' with
  | nil => exact absurd rfl hT
  | node bf a sub ih =>
      obtain ⟨f, rfl, hsubfuel⟩ := exists_fuel hfuel
      obtain ⟨hthreadl, hlinkl, hsubl⟩ := hrep.2.2 .left
      obtain ⟨hthreadr, hlinkr, hsubr⟩ := hrep.2.2 .right
      rw [Heap.firstFrom, rootOr, hrep.1, show a.2.citem = keyOf a from rfl]
      obtain ⟨M, hleft, rfl⟩ | ⟨M, rfl, hright⟩ := append_cons_eq_append hlist
      · -- the node is the root, or on the left
        have hle : key ≤ keyOf a := hafter a (List.mem_append_right _ List.mem_cons_self)
        rw [place_append, if_neg (not_lt.mpr hle)]
        obtain heq | hlt := hle.eq_or_lt
        · have hM : M = [] := by
            refine List.eq_nil_iff_forall_not_mem.mpr fun c hc => ?_
            have hmem : c ∈ (sub .left).toList := hleft ▸ List.mem_append_right _ hc
            exact absurd (hafter c (List.mem_append_left _ hc))
              (not_le.mpr (heq ▸ hsorted.left_lt hmem))
          rw [if_neg heq.not_lt, hM]
          rfl
        · rw [if_pos hlt, hthreadl, hlinkl]
          by_cases hnil : sub .left = .nil
          · rw [hnil] at hleft ⊢
            obtain ⟨-, rfl⟩ := List.append_eq_nil_iff.mp hleft.symm
            rfl
          · rw [isNil_of_ne hnil, if_neg Bool.false_ne_true]
            exact ih .left hsubl hnil (hsorted.subtree .left) hleft hbefore
              (fun c hc => hafter c (List.mem_append_left _ hc)) (hsubfuel .left)
      · -- the node is on the right, or where the thread at its end leads
        have hlt : keyOf a < key := hbefore a (List.mem_append_right _ List.mem_cons_self)
        rw [if_neg hlt.not_gt, if_pos hlt, hthreadr, hlinkr]
        by_cases hnil : sub .right = .nil
        · rw [hnil] at hright hthreadr hlinkr ⊢
          obtain ⟨-, rfl⟩ := List.append_eq_nil_iff.mp hright.symm
          rw [AvlTree.isNil, if_pos rfl, Heap.avlSucc, Heap.avlNext, hthreadr, hlinkr]
          rfl
        · rw [isNil_of_ne hnil, if_neg Bool.false_ne_true]
          have hends : Function.update ends Side.right.other a.1 .right = ends .right := rfl
          rw [ih .right hsubr hnil (hsorted.subtree .right) hright
            (fun c hc => hbefore c (List.mem_append_right _ (List.mem_cons_of_mem _ hc))) hafter
            (hsubfuel .right), hends]

end

/-! ## Nodes in use -/

/-- The nodes not in use are others than those in use, and none has the address 0. -/
structure Pool.Sound (pool : Pool) (L : List Ptr) : Prop where
  nodup : (L ++ pool.freelist).Nodup
  bound : ∀ p ∈ L ++ pool.freelist, 0 < p ∧ p < pool.chunk
  chunk : 0 < pool.chunk

section

variable {pool : Pool} {L L' : List Ptr} {p : Ptr}

theorem Pool.Sound.perm (h : pool.Sound L) (hperm : L'.Perm L) : pool.Sound L' where
  nodup := (hperm.append_right _).nodup_iff.mpr h.nodup
  bound := fun p hp => h.bound p ((hperm.append_right _).mem_iff.mp hp)
  chunk := h.chunk

theorem Pool.Sound.nodup_used (h : pool.Sound L) : L.Nodup :=
  h.nodup.sublist (List.sublist_append_left _ _)

theorem Pool.Sound.zero_notMem (h : pool.Sound L) : 0 ∉ L :=
  fun hmem => lt_irrefl 0 (h.bound 0 (List.mem_append_left _ hmem)).1

theorem Pool.Sound.allocate (h : pool.Sound L) :
    pool.allocate.2.Sound (pool.allocate.1 :: L) := by
  obtain ⟨hnodup, hbound, hchunk⟩ := h
  rw [Pool.allocate]
  cases hfree : pool.freelist with
  | nil =>
      rw [hfree, List.append_nil] at hnodup hbound
      -- the last element of the new chunk is taken, the others are free
      have hsize : chunksize = chunksize - 1 + 1 := by decide
      generalize chunksize - 1 = size at hsize ⊢
      rw [hsize]
      have hmem : ∀ {p}, p ∈ (List.range' pool.chunk size).reverse →
          pool.chunk ≤ p ∧ p < pool.chunk + size :=
        fun hp => List.mem_range'_1.mp (List.mem_reverse.mp hp)
      have hnew : pool.chunk + size ∉ L ++ (List.range' pool.chunk size).reverse := by
        intro hp
        obtain hp | hp := List.mem_append.mp hp
        · exact absurd (hbound _ hp).2 (not_lt.mpr (Nat.le_add_right _ _))
        · exact absurd (hmem hp).2 (lt_irrefl _)
      have hdisjoint : L.Disjoint (List.range' pool.chunk size).reverse :=
        fun p hp hq => absurd (hbound p hp).2 (not_lt.mpr (hmem hq).1)
      refine ⟨List.nodup_cons.mpr ⟨hnew, List.nodup_append'.mpr
        ⟨hnodup, List.nodup_reverse.mpr List.nodup_range', hdisjoint⟩⟩, fun p hp => ?_,
        Nat.add_pos_left hchunk _⟩
      obtain rfl | hp := List.mem_cons.mp hp
      · exact ⟨Nat.add_pos_left hchunk _, Nat.lt_succ_self _⟩
      · obtain hp | hp := List.mem_append.mp hp
        · exact ⟨(hbound p hp).1, (hbound p hp).2.trans_le (Nat.le_add_right _ _)⟩
        · exact ⟨hchunk.trans_le (hmem hp).1, (hmem hp).2.trans (Nat.lt_succ_self _)⟩
  | cons n free =>
      rw [hfree] at hnodup hbound
      have hperm : (n :: L ++ free).Perm (L ++ n :: free) := List.perm_middle.symm
      exact ⟨hperm.nodup_iff.mpr hnodup, fun p hp => hbound p (hperm.mem_iff.mp hp), hchunk⟩

theorem Pool.Sound.deallocate (h : pool.Sound (p :: L)) : (pool.deallocate p).Sound L := by
  have hperm : (L ++ p :: pool.freelist).Perm (p :: L ++ pool.freelist) := List.perm_middle
  exact ⟨hperm.nodup_iff.mpr h.nodup, fun q hq => h.bound q (hperm.mem_iff.mp hq), h.chunk⟩

end

/-! ## The invariant -/

/-- The nodes in memory are a balanced search tree, and what is noted of them is right. -/
structure State.Valid (st : State) (T : PTree) : Prop where
  rep : Rep st.heap.node T fun _ => 0
  root : st.heap.root = rootOr 0 T
  avl : T.Avl
  sorted : T.Sorted keyOf
  pool : st.pool.Sound (ptrs T)
  count : st.nobjects = T.toList.length

section

variable {st : State} {fuel key : ℕ} {c : Ptr × Item} {L L' : List (Ptr × Item)}

theorem mem_of_split (hlist : T.toList = L ++ c :: L') : c ∈ T.toList :=
  hlist ▸ List.mem_append_right _ List.mem_cons_self

theorem mem_ptrs (hc : c ∈ T.toList) : c.1 ∈ ptrs T := List.mem_map_of_mem hc

theorem State.Valid.ne_zero (hv : st.Valid T) (hc : c ∈ T.toList) : c.1 ≠ 0 :=
  fun heq => hv.pool.zero_notMem (heq ▸ mem_ptrs hc)

theorem State.Valid.root_ne_zero (hv : st.Valid T) (hT : T ≠ .nil) : st.heap.root ≠ 0 := by
  cases T with
  | nil => exact absurd rfl hT
  | node bf a sub =>
      rw [hv.root]
      exact hv.ne_zero (AvlTree.mem_node.mpr (.inr (.inl rfl)))

theorem avlFind_found (hv : st.Valid T) (hc : c ∈ T.toList) (hfuel : T.height ≤ fuel) :
    st.heap.avlFind fuel (keyOf c) = some c.1 := by
  rw [Heap.avlFind, if_neg (hv.root_ne_zero (ne_nil_of_mem hc)), hv.root]
  exact findFrom_found hv.rep hv.sorted hc hfuel

theorem avlFind_absent (hv : st.Valid T) (hkey : ∀ c ∈ T.toList, keyOf c ≠ key)
    (hfuel : T.height ≤ fuel) : st.heap.avlFind fuel key = some 0 := by
  rw [Heap.avlFind]
  by_cases hT : T = .nil
  · rw [hT] at hv
    exact if_pos hv.root
  · rw [if_neg (hv.root_ne_zero hT), hv.root]
    exact findFrom_absent hv.rep hT hkey hfuel

theorem avlFirst_eq (hv : st.Valid T) (hlist : T.toList = L ++ L')
    (hbefore : ∀ c ∈ L, keyOf c < key) (hafter : ∀ c ∈ L', key ≤ keyOf c)
    (hfuel : T.height ≤ fuel) : st.heap.avlFirst fuel key = some (place 0 L'.head?) := by
  rw [Heap.avlFirst]
  by_cases hT : T = .nil
  · rw [hT] at hv hlist
    obtain ⟨-, rfl⟩ := List.append_eq_nil_iff.mp hlist.symm
    exact if_pos hv.root
  · rw [if_neg (hv.root_ne_zero hT), hv.root]
    exact firstFrom_eq hv.rep hT hv.sorted hlist hbefore hafter hfuel

/-! ## Adding -/

theorem avlAdd_found (hv : st.Valid T) (hc : c ∈ T.toList) (hfuel : T.height ≤ fuel) :
    ∃ st', st.avlAdd fuel (keyOf c) = some (c.1, st') ∧ st'.Valid T := by
  let st₀ := { st with targetItem := keyOf c, needRebalancing := false }
  have hrep : Rep st₀.heap.node T fun _ => 0 := hv.rep
  have hget : st₀.heap.get .root = rootOr 0 T := hv.root
  have hadd : State.avlAddAt fuel .root st₀ = some { st₀ with foundNode := c.1 } :=
    avlAddAt_found hrep hget hv.sorted hc rfl rfl hfuel
  refine ⟨{ st₀ with foundNode := c.1 }, ?_,
    ⟨hv.rep, hv.root, hv.avl, hv.sorted, hv.pool, hv.count⟩⟩
  rw [State.avlAdd, if_neg (hv.root_ne_zero (ne_nil_of_mem hc))]
  exact congrArg (Option.bind · _) hadd

theorem sorted_insert {new : Ptr × Item} {T' : PTree} (hsorted : T.Sorted keyOf)
    (hlist : T.toList = L ++ L') (hlist' : T'.toList = L ++ new :: L')
    (hbefore : ∀ c ∈ L, keyOf c < keyOf new) (hafter : ∀ c ∈ L', keyOf new < keyOf c) :
    T'.Sorted keyOf := by
  rw [AvlTree.Sorted, hlist] at hsorted
  rw [AvlTree.Sorted, hlist']
  obtain ⟨hl, hr, hcross⟩ := List.pairwise_append.mp hsorted
  refine List.pairwise_append.mpr ⟨hl, List.pairwise_cons.mpr ⟨hafter, hr⟩, fun b hb d hd => ?_⟩
  obtain rfl | hd := List.mem_cons.mp hd
  · exact hbefore b hb
  · exact hcross b hb d hd

/-- The first node. -/
theorem avlAdd_first (hv : st.Valid .nil) (fuel key : ℕ) : ∃ p st',
    st.avlAdd fuel key = some (p, st') ∧
      st'.Valid (.node .even (p, State.newItem key) fun _ => .nil) := by
  let p := st.pool.allocate.1
  obtain ⟨st', hadd, hroot, hnode, hpool, hcount⟩ : ∃ st', st.avlAdd fuel key = some (p, st') ∧
      st'.heap.root = p ∧
      st'.heap.node p = ⟨State.newItem key, fun _ => 0, fun _ => true, .even⟩ ∧
      st'.pool = st.pool.allocate.2 ∧ st'.nobjects = st.nobjects + 1 := by
    rw [State.avlAdd, if_pos (show st.heap.root = 0 from hv.root)]
    refine ⟨_, rfl, rfl, ?_, rfl, rfl⟩
    have hthread : Function.update (Function.update (fun _ => false) Side.right true)
        Side.left true = fun _ => true := by
      funext s
      cases s <;> rfl
    simp [Heap.setThread, p, hthread]
  refine ⟨p, st', hadd, ⟨by rw [hnode], by rw [hnode], fun s => ?_⟩, hroot,
    ⟨trivial, trivial, rfl⟩, List.pairwise_singleton _ _, hpool ▸ hv.pool.allocate, ?_⟩
  · rw [hnode]
    exact ⟨rfl, rfl, trivial⟩
  · exact hcount.trans (congrArg (· + 1) hv.count)

theorem avlAdd_new (hv : st.Valid T) (hkey : ∀ c ∈ T.toList, keyOf c ≠ key)
    (hfuel : T.height ≤ fuel) : ∃ p st' T' L L', st.avlAdd fuel key = some (p, st') ∧
      st'.Valid T' ∧ T.toList = L ++ L' ∧ T'.toList = L ++ (p, State.newItem key) :: L' := by
  by_cases hT : T = .nil
  · rw [hT] at hv ⊢
    obtain ⟨p, st', hadd, hv'⟩ := avlAdd_first hv fuel key
    exact ⟨p, st', _, [], [], hadd, hv', rfl, rfl⟩
  · let st₀ := { st with targetItem := key, needRebalancing := false }
    have hpool := hv.pool.allocate
    have hrep : Rep st₀.heap.node T fun _ => 0 := hv.rep
    have hget : st₀.heap.get .root = rootOr 0 T := hv.root
    obtain ⟨h₁, hadd, hbecomes⟩ := avlAddAt_new hrep hT hget hv.pool.nodup_used hv.avl
      (List.nodup_cons.mp hpool.nodup_used).1 trivial hkey hv.sorted hfuel
    let new := (st.pool.allocate.1, State.newItem key)
    obtain ⟨L, L', hlist, hlist', hbefore, hafter⟩ := AvlTree.toList_insert new hv.sorted hkey
    have hperm : (ptrs (AvlTree.insert keyOf new T).1).Perm (st.pool.allocate.1 :: ptrs T) := by
      rw [ptrs, hlist', ptrs, hlist]
      exact List.perm_middle.map Prod.fst
    refine ⟨st.pool.allocate.1, st₀.added h₁ (AvlTree.insert keyOf new T).2,
      (AvlTree.insert keyOf new T).1, L, L', ?_, ?_, hlist, hlist'⟩
    · rw [State.avlAdd, if_neg (hv.root_ne_zero hT)]
      exact congrArg (Option.bind · _) hadd
    · refine ⟨hbecomes.rep, hbecomes.root, (AvlTree.insert_avl keyOf new hv.avl).1,
        sorted_insert hv.sorted hlist hlist' hbefore hafter, hpool.perm hperm, ?_⟩
      have hcount : st.nobjects + 1 = T.toList.length + 1 := congrArg (· + 1) hv.count
      rw [hlist', List.length_append, List.length_cons, ← add_assoc, ← List.length_append, ← hlist]
      exact hcount

end

/-! ## Deleting -/

section

variable {st : State} {fuel key start stop steps : ℕ} {c : Ptr × Item} {L L' : List (Ptr × Item)}

/-- The state in which `_avl_del` starts. -/
def State.seeking (st : State) (key : ℕ) : State := { st with
  needRebalancing := false, alreadyFound := false, foundNode := 0, targetItem := key }

/-- The state after the node that was found is given back. -/
def State.released (st : State) : State := { st with
  chains := st.chains.set st.foundNode 0
  pool := st.pool.deallocate st.foundNode
  nobjects := st.nobjects - 1
  heap := if st.nobjects - 1 = 0 then { st.heap with root := 0 } else st.heap }

theorem avlDel_eq {st₁ : State} (hfirst : (if st.heap.root ≠ 0 then
      State.avlDelAt fuel st.heap.root .root (st.seeking key) else some (st.seeking key)) =
        some st₁) :
    st.avlDel fuel key =
      if st₁.foundNode = 0 then some (false, st₁) else some (true, st₁.released) := by
  have hend : some (true, st₁.released) = if st₁.nobjects - 1 = 0 then
      some (true, { st₁.released with heap := { st₁.heap with root := 0 } })
      else some (true, { st₁.released with heap := st₁.heap }) := by
    rw [State.released]
    split_ifs
    · rfl
    · rfl
  rw [State.avlDel, hend]
  dsimp only
  by_cases hroot : st.heap.root ≠ 0
  · rw [if_pos hroot] at hfirst ⊢
    exact congrArg (Option.bind · _) hfirst
  · rw [if_neg hroot] at hfirst ⊢
    exact congrArg (Option.bind · _) hfirst

theorem released_node (st : State) : st.released.heap.node = st.heap.node := by
  rw [State.released]
  dsimp only
  split_ifs
  · rfl
  · rfl

theorem released_root (st : State) :
    st.released.heap.root = if st.nobjects - 1 = 0 then 0 else st.heap.root := by
  rw [State.released]
  dsimp only
  split_ifs
  · rfl
  · rfl

theorem avlDel_absent (hv : st.Valid T) (hkey : ∀ c ∈ T.toList, keyOf c ≠ key)
    (hfuel : T.height ≤ fuel) : ∃ st', st.avlDel fuel key = some (false, st') ∧ st'.Valid T := by
  have hfirst : (if st.heap.root ≠ 0 then
      State.avlDelAt fuel st.heap.root .root (st.seeking key) else some (st.seeking key)) =
        some (st.seeking key) := by
    by_cases hT : T = .nil
    · rw [hT] at hv
      exact if_neg (not_not.mpr hv.root)
    · refine (if_pos (hv.root_ne_zero hT)).trans ?_
      have hrep : Rep (st.seeking key).heap.node T fun _ => 0 := hv.rep
      have hget : (st.seeking key).heap.get .root = rootOr 0 T := hv.root
      exact avlDelAt_absent hrep hT hget hkey rfl rfl hfuel
  exact ⟨st.seeking key, (avlDel_eq hfirst).trans (if_pos rfl),
    ⟨hv.rep, hv.root, hv.avl, hv.sorted, hv.pool, hv.count⟩⟩

/-- The tree without the node that goes. -/
theorem erase_split (hsorted : T.Sorted keyOf) (hlist : T.toList = L ++ c :: L') :
    let T' := (AvlTree.erase keyOf giveItem (keyOf c) T).1
    ∃ L₀, T'.toList = L₀ ++ L' ∧ L₀.map Prod.snd = L.map Prod.snd ∧
      (ptrs T).Perm (goneNode (AvlTree.taken keyOf (keyOf c) c T) :: ptrs T') := by
  intro T'
  have hc : c ∈ T.toList := mem_of_split hlist
  obtain ⟨l₁, l₂, hlist', hcases⟩ := AvlTree.toList_erase (b := c) giveItem hsorted hc
  obtain ⟨rfl, rfl⟩ := hsorted.split_unique hlist hlist'
  obtain ⟨htaken, herase⟩ | ⟨l₀, d, rfl, htaken, herase⟩ := hcases
  · refine ⟨L, herase, rfl, ?_⟩
    rw [htaken, ptrs, hlist, ptrs, herase]
    exact List.perm_middle.map Prod.fst
  · -- the node before gives its item, and goes itself
    refine ⟨l₀ ++ [giveItem c d], by rw [herase, List.append_assoc]; rfl, ?_, ?_⟩
    · rw [List.map_append, List.map_append]
      rfl
    · rw [htaken, ptrs, hlist, ptrs, herase, List.append_assoc, List.map_append, List.map_append,
        List.map_append]
      exact List.perm_middle

theorem sorted_iff : T.Sorted keyOf ↔
    (T.toList.map Prod.snd).Pairwise fun i j => i.citem < j.citem := by
  rw [List.pairwise_map]
  exact Iff.rfl

/-- A tree that lost an item is not larger. -/
theorem length_le_of_items {T' : PTree} {L₀ : List (Ptr × Item)} (hlist : T.toList = L ++ c :: L')
    (hlist' : T'.toList = L₀ ++ L') (hitems : L₀.map Prod.snd = L.map Prod.snd) :
    T'.toList.length ≤ T.toList.length := by
  have hlength := congrArg List.length hitems
  rw [List.length_map, List.length_map] at hlength
  rw [hlist, hlist', List.length_append, List.length_append, List.length_cons]
  omega

theorem avlDel_found (hv : st.Valid T) (hlist : T.toList = L ++ c :: L')
    (hfuel : T.height ≤ fuel) : ∃ st' T' L₀, st.avlDel fuel (keyOf c) = some (true, st') ∧
      st'.Valid T' ∧ T'.toList = L₀ ++ L' ∧ L₀.map Prod.snd = L.map Prod.snd := by
  have hc : c ∈ T.toList := mem_of_split hlist
  let T' := (AvlTree.erase keyOf giveItem (keyOf c) T).1
  let gone := goneNode (AvlTree.taken keyOf (keyOf c) c T)
  have hparent : Parent (st.seeking (keyOf c)).heap st.heap.root .root T fun _ => 0 :=
    ⟨trivial, fun _ => hv.pool.zero_notMem, .inl ⟨rfl, hv.root⟩⟩
  have hget : (st.seeking (keyOf c)).heap.get .root = rootOr 0 T := hv.root
  have hrep : Rep (st.seeking (keyOf c)).heap.node T fun _ => 0 := hv.rep
  obtain ⟨h₁, found, hdel, hloses⟩ := avlDelAt_found hrep hget hv.pool.nodup_used hv.avl hparent
    hv.pool.zero_notMem hv.sorted hc rfl rfl hfuel
  obtain ⟨L₀, hlist', hitems, hperm⟩ := erase_split hv.sorted hlist
  have hgone : gone ≠ 0 := fun heq =>
    hv.pool.zero_notMem (hperm.mem_iff.mpr (heq ▸ List.mem_cons_self))
  have hlength : T.toList.length = T'.toList.length + 1 := by
    have := hperm.length_eq
    rwa [ptrs, List.length_map, List.length_cons, ptrs, List.length_map] at this
  have hroot : h₁.root = rootOr st.heap.root T' := hloses.root.trans (if_pos rfl)
  have hcount : st.nobjects - 1 = T'.toList.length := by
    rw [hv.count, hlength]
    rfl
  have hend := avlDel_eq ((if_pos (hv.root_ne_zero (ne_nil_of_mem hc))).trans hdel)
  refine ⟨_, T', L₀, hend.trans (if_neg hgone), ⟨?_, ?_, (AvlTree.erase_avl hv.avl).1, ?_,
    (hv.pool.perm hperm.symm).deallocate, hcount⟩, hlist', hitems⟩
  · rw [released_node]
    exact hloses.rep
  · -- `_avl_del` does not set `root` when the last node goes; `avl_del` does
    rw [released_root]
    change (if st.nobjects - 1 = 0 then 0 else h₁.root) = rootOr 0 T'
    rw [hcount, hroot]
    cases hT' : T' with
    | nil => rfl
    | node bf a sub =>
        rw [AvlTree.toList, List.length_append, List.length_cons, if_neg (by omega)]
        rfl
  · refine sorted_iff.mpr ((sorted_iff.mp hv.sorted).sublist ?_)
    rw [hlist, hlist', List.map_append, List.map_append, hitems]
    exact ((List.sublist_cons_self c L').map _).append_left _

end

/-! ## Fields of a node -/

section

variable {st : State} {fuel key start stop steps : ℕ} {c : Ptr × Item} {L L' : List (Ptr × Item)}

theorem rootOr_map {g : Ptr × Item → Ptr × Item} (hg : ∀ b ∈ T.toList, (g b).1 = b.1) (e : Ptr) :
    rootOr e (T.map g) = rootOr e T := by
  cases T with
  | nil => rfl
  | node bf a sub => exact hg a (AvlTree.mem_node.mpr (.inr (.inl rfl)))

/-- The items change in memory and in the tree. -/
theorem rep_map {g : Ptr × Item → Ptr × Item} (hrep : Rep node T ends)
    (hg : ∀ b ∈ T.toList, (g b).1 = b.1 ∧ node' b.1 = { node b.1 with item := (g b).2 }) :
    Rep node' (T.map g) ends := by
  induction T generalizing ends with
  | nil => trivial
  | node bf a sub ih =>
      obtain ⟨-, hbf, hsub⟩ := hrep
      obtain ⟨hfst, hnode⟩ := hg a (AvlTree.mem_node.mpr (.inr (.inl rfl)))
      refine ⟨by rw [hfst, hnode], by rw [hfst, hnode]; exact hbf, fun s => ?_⟩
      obtain ⟨hthread, hlink, hreps⟩ := hsub s
      have hgs : ∀ b ∈ (sub s).toList,
          (g b).1 = b.1 ∧ node' b.1 = { node b.1 with item := (g b).2 } := by
        intro b hb
        refine hg b (AvlTree.mem_node.mpr ?_)
        cases s with
        | left => exact .inl hb
        | right => exact .inr (.inr hb)
      rw [hfst, hnode, AvlTree.isNil_map, rootOr_map fun b hb => (hgs b hb).1]
      exact ⟨hthread, hlink, ih s hreps hgs⟩

/-- The item of a node gets new values. -/
theorem assign_valid (hv : st.Valid T) (hlist : T.toList = L ++ c :: L') (f : Item → Item) :
    ∃ T', (st.assign c.1 f).Valid T' ∧ T'.toList = L ++ (c.1, c.2.update f) :: L' := by
  let g : Ptr × Item → Ptr × Item := fun b => if b.1 = c.1 then (b.1, b.2.update f) else b
  have hc : c ∈ T.toList := mem_of_split hlist
  have hother : ∀ b ∈ L ++ L', g b = b := by
    intro b hb
    have hnodup := hv.pool.nodup_used
    rw [ptrs, hlist, List.map_append, List.map_cons] at hnodup
    have hnot := (List.nodup_cons.mp (List.nodup_middle.mp hnodup)).1
    refine if_neg fun heq => hnot ?_
    rw [← List.map_append, ← heq]
    exact List.mem_map_of_mem hb
  have hmap : T.toList.map g = L ++ (c.1, c.2.update f) :: L' := by
    rw [hlist, List.map_append, List.map_cons,
      List.map_congr_left fun b hb => hother b (List.mem_append_left _ hb),
      List.map_congr_left (l := L') fun b hb => hother b (List.mem_append_right _ hb),
      List.map_id', List.map_id', show g c = (c.1, c.2.update f) from if_pos rfl]
  have hsame : ∀ b, (g b).1 = b.1 ∧ keyOf (g b) = keyOf b := by
    intro b
    dsimp only [g]
    split_ifs
    · exact ⟨rfl, rfl⟩
    · exact ⟨rfl, rfl⟩
  have hptrs : ptrs (T.map g) = ptrs T := by
    rw [ptrs, AvlTree.toList_map, List.map_map]
    exact List.map_congr_left fun b _ => (hsame b).1
  refine ⟨T.map g, ⟨rep_map hv.rep fun b hb => ⟨(hsame b).1, ?_⟩, ?_, AvlTree.avl_map g hv.avl, ?_,
    hptrs ▸ hv.pool, ?_⟩, (AvlTree.toList_map g T).trans hmap⟩
  · have hitem : (st.heap.node b.1).item = b.2 := rep_item hv.rep hb
    by_cases heq : b.1 = c.1
    · rw [show g b = (b.1, b.2.update f) from if_pos heq, State.assign, heq, Heap.setItem,
        Heap.modify_self, ← heq, hitem]
    · rw [State.assign, Heap.setItem, Heap.modify_of_ne _ heq, show g b = b from if_neg heq, ← hitem]
  · exact hv.root.trans (rootOr_map (fun b _ => (hsame b).1) 0).symm
  · rw [AvlTree.Sorted, AvlTree.toList_map, List.pairwise_map]
    exact hv.sorted.imp fun h => by rwa [(hsame _).2, (hsame _).2]
  · rw [AvlTree.toList_map, List.length_map]
    exact hv.count

/-! ## Destroying -/

theorem State.Valid.item (hv : st.Valid T) (hc : c ∈ T.toList) :
    (st.heap.node c.1).item = c.2 := rep_item hv.rep hc

theorem csideDestroyNode_eq (hv : st.Valid T) (hlist : T.toList = L ++ c :: L')
    (hbelong : c.2.belong = .c) (hfuel : T.height ≤ fuel) :
    ∃ st' T' L₀, st.csideDestroyNode fuel c.1 = some st' ∧ st'.Valid T' ∧
      T'.toList = L₀ ++ L' ∧ L₀.map Prod.snd = L.map Prod.snd := by
  have hc : c ∈ T.toList := mem_of_split hlist
  rw [State.csideDestroyNode, hv.item hc]
  dsimp only
  rw [if_neg (not_not.mpr hbelong)]
  set st₁ := if c.2.litem ≠ 0 then { st with chains := st.chains.set c.1 0 } else st with hst₁
  have hv₁ : st₁.Valid T := by
    rw [hst₁]
    split_ifs
    · exact ⟨hv.rep, hv.root, hv.avl, hv.sorted, hv.pool, hv.count⟩
    · exact hv
  obtain ⟨st', T', L₀, hdel, hv', hlist', hitems⟩ := avlDel_found hv₁ hlist hfuel
  exact ⟨st', T', L₀, congrArg (Option.map Prod.snd) hdel, hv', hlist', hitems⟩

/-- The items that `cside_destroy_range` takes away. -/
def Destroyed (start stop : ℕ) (item : Item) : Prop :=
  item.belong = .c ∧ start ≤ item.citem ∧ item.citem < stop

instance : DecidablePred (Destroyed start stop) :=
  fun item => inferInstanceAs (Decidable (item.belong = .c ∧ start ≤ item.citem ∧ item.citem < stop))

theorem pairwise_of_split (hsorted : T.Sorted keyOf) (hlist : T.toList = L ++ c :: L') :
    (∀ b ∈ L, keyOf b < keyOf c) ∧ ∀ b ∈ L', keyOf c < keyOf b := by
  rw [AvlTree.Sorted, hlist] at hsorted
  obtain ⟨-, hright, hcross⟩ := List.pairwise_append.mp hsorted
  exact ⟨fun b hb => hcross b hb c List.mem_cons_self, (List.pairwise_cons.mp hright).1⟩

/-- The loop goes over the nodes from `L'` on. -/
theorem destroyFrom_eq (stop : ℕ) (hv : st.Valid T) (hlist : T.toList = L ++ L')
    (hafter : ∀ c ∈ L', start ≤ keyOf c) (hsteps : L'.length < steps)
    (hfuel : T.toList.length ≤ fuel) :
    ∃ st' T', st.destroyFrom fuel stop steps (place 0 L'.head?) = some st' ∧ st'.Valid T' ∧
      T'.toList.map Prod.snd = L.map Prod.snd ++
        (L'.map Prod.snd).filter fun item => ¬Destroyed start stop item := by
  -- the induction is on the nodes that the loop has still to meet
  induction L' generalizing st T L steps with
  | nil =>
      obtain ⟨steps, rfl⟩ := Nat.exists_eq_succ_of_ne_zero (Nat.ne_zero_of_lt hsteps)
      refine ⟨st, T, ?_, hv, ?_⟩
      · exact if_neg fun h => h.1 rfl
      · rw [hlist, List.append_nil]
        exact (List.append_nil _).symm
  | cons a M ih =>
      obtain ⟨steps, rfl⟩ := Nat.exists_eq_succ_of_ne_zero (Nat.ne_zero_of_lt hsteps)
      have ha : a ∈ T.toList := mem_of_split hlist
      have hheight := (AvlTree.height_le_length T).trans hfuel
      rw [List.head?_cons, place, State.destroyFrom, hv.item ha, List.map_cons]
      by_cases hstop : a.2.citem < stop
      · rw [if_pos ⟨hv.ne_zero ha, hstop⟩, avlSucc_eq hv.rep hlist hheight]
        have hafter' : ∀ c ∈ M, start ≤ keyOf c := fun c hc => hafter c (List.mem_cons_of_mem _ hc)
        have hsteps' : M.length < steps := Nat.lt_of_succ_lt_succ hsteps
        by_cases hbelong : a.2.belong = .c
        · -- the nodes from the next one on are the same ones after the deletion
          obtain ⟨st₁, T₁, L₀, hdestroy, hv₁, hlist₁, hitems⟩ :=
            csideDestroyNode_eq hv hlist hbelong hheight
          have hfuel₁ : T₁.toList.length ≤ fuel :=
            (length_le_of_items hlist hlist₁ hitems).trans hfuel
          obtain ⟨st', T', hloop, hv', hitems'⟩ := ih hv₁ hlist₁ hafter' hsteps' hfuel₁
          have hgoes : Destroyed start stop a.2 := ⟨hbelong, hafter a List.mem_cons_self, hstop⟩
          refine ⟨st', T', ?_, hv', ?_⟩
          · refine (if_pos hbelong).trans ?_
            exact (congrArg (Option.bind · _) hdestroy).trans hloop
          · rw [hitems', hitems, List.filter_cons_of_neg (by simpa using hgoes)]
        · have hlist₁ : T.toList = (L ++ [a]) ++ M := by rw [hlist, List.append_assoc]; rfl
          obtain ⟨st', T', hloop, hv', hitems'⟩ := ih hv hlist₁ hafter' hsteps' hfuel
          have hstays : ¬Destroyed start stop a.2 := fun h => hbelong h.1
          refine ⟨st', T', ?_, hv', ?_⟩
          · exact (if_neg hbelong).trans hloop
          · rw [hitems', List.filter_cons_of_pos (by simpa using hstays), List.map_append,
              List.append_assoc]
            rfl
      · -- the loop ends here, and the keys that follow are even larger
        have hrest : ∀ b ∈ a :: M, ¬Destroyed start stop b.2 := by
          intro b hb hgoes
          obtain rfl | hb := List.mem_cons.mp hb
          · exact hstop hgoes.2.2
          · exact hstop (((pairwise_of_split hv.sorted hlist).2 b hb).trans hgoes.2.2)
        refine ⟨st, T, if_neg fun h => hstop h.2, hv, ?_⟩
        rw [← List.map_cons, List.filter_eq_self.mpr, ← List.map_append, hlist]
        intro item hitem
        obtain ⟨b, hb, rfl⟩ := List.mem_map.mp hitem
        exact decide_eq_true (hrest b hb)

end

/-! ## The map -/

section

variable {m : ℕ → Option Item} {A B : List Item} {i j : Item} {key start stop : ℕ}

/-- The items are those of a map from keys. -/
def Lists (m : ℕ → Option Item) (items : List Item) : Prop :=
  ∀ key item, m key = some item ↔ item ∈ items ∧ item.citem = key

theorem Lists.insert (h : Lists m (A ++ B)) (hnew : ∀ x ∈ A ++ B, x.citem ≠ i.citem) :
    Lists (Function.update m i.citem (some i)) (A ++ i :: B) := by
  intro key item
  rw [List.perm_middle.mem_iff, List.mem_cons]
  by_cases hkey : key = i.citem
  · rw [hkey, Function.update_self, Option.some_inj]
    constructor
    · rintro rfl
      exact ⟨.inl rfl, rfl⟩
    · rintro ⟨rfl | hmem, heq⟩
      · rfl
      · exact absurd heq (hnew item hmem)
  · rw [Function.update_of_ne hkey, h key item]
    refine and_congr_left fun heq => ⟨.inr, ?_⟩
    rintro (rfl | hmem)
    · exact absurd heq.symm hkey
    · exact hmem

theorem Lists.erase (h : Lists m (A ++ i :: B)) (hother : ∀ x ∈ A ++ B, x.citem ≠ i.citem) :
    Lists (Function.update m i.citem none) (A ++ B) := by
  intro key item
  by_cases hkey : key = i.citem
  · rw [hkey, Function.update_self]
    refine iff_of_false (fun heq => by cases heq) ?_
    rintro ⟨hmem, heq⟩
    exact hother item hmem heq
  · rw [Function.update_of_ne hkey, h key item, List.perm_middle.mem_iff, List.mem_cons]
    refine and_congr_left fun heq => ⟨?_, .inr⟩
    rintro (rfl | hmem)
    · exact absurd heq.symm hkey
    · exact hmem

theorem Lists.replace (h : Lists m (A ++ i :: B)) (hother : ∀ x ∈ A ++ B, x.citem ≠ i.citem)
    (hkey : j.citem = i.citem) : Lists (Function.update m i.citem (some j)) (A ++ j :: B) := by
  have hnew := (h.erase hother).insert (i := j) fun x hx => hkey ▸ hother x hx
  rwa [hkey, Function.update_idem] at hnew

theorem Lists.filter {items : List Item} (h : Lists m items) (P : Item → Prop) [DecidablePred P] :
    Lists (fun key => (m key).filter fun item => ¬P item)
      (items.filter fun item => ¬P item) := by
  intro key item
  rw [Option.filter_eq_some_iff, h key item, List.mem_filter]
  tauto

end

/-- What an operation does to the map from the keys to the items. -/
def AvlOp.onMap (op : AvlOp) (m : ℕ → Option Item) : ℕ → Option Item :=
  match op with
  | .add key f => Function.update m key (some (((m key).getD (State.newItem key)).update f))
  | .update key f => Function.update m key ((m key).map (Item.update f))
  | .del key => Function.update m key none
  | .destroyRange start stop => fun key => (m key).filter fun item => ¬Destroyed start stop item

section

variable {st : State} {m : ℕ → Option Item} {fuel key start stop : ℕ} {c : Ptr × Item}
  {L L' : List (Ptr × Item)}

/-- The items of a tree, in the order of their keys. -/
def items (T : PTree) : List Item := T.toList.map Prod.snd

theorem items_split (hlist : T.toList = L ++ c :: L') :
    items T = L.map Prod.snd ++ c.2 :: L'.map Prod.snd := by
  rw [items, hlist, List.map_append, List.map_cons]

theorem items_append (hlist : T.toList = L ++ L') :
    items T = L.map Prod.snd ++ L'.map Prod.snd := by
  rw [items, hlist, List.map_append]

/-- The other items of the tree have other keys. -/
theorem citem_ne (hsorted : T.Sorted keyOf) (hlist : T.toList = L ++ c :: L') :
    ∀ x ∈ L.map Prod.snd ++ L'.map Prod.snd, x.citem ≠ c.2.citem := by
  obtain ⟨hl, hr⟩ := pairwise_of_split hsorted hlist
  intro x hx
  rw [← List.map_append] at hx
  obtain ⟨b, hb, rfl⟩ := List.mem_map.mp hx
  obtain hb | hb := List.mem_append.mp hb
  · exact (hl b hb).ne
  · exact (hr b hb).ne'

theorem Lists.some_of_mem (h : Lists m (items T)) (hc : c ∈ T.toList) : m (keyOf c) = some c.2 :=
  (h _ _).mpr ⟨List.mem_map_of_mem hc, rfl⟩

theorem Lists.none_of_absent (h : Lists m (items T)) (hkey : ∀ c ∈ T.toList, keyOf c ≠ key) :
    m key = none := by
  refine Option.eq_none_iff_forall_ne_some.mpr fun item hitem => ?_
  obtain ⟨hmem, heq⟩ := (h key item).mp hitem
  obtain ⟨c, hc, rfl⟩ := List.mem_map.mp hmem
  exact hkey c hc heq

theorem exists_split (T : PTree) (key : ℕ) : (∃ c L L', T.toList = L ++ c :: L' ∧ keyOf c = key) ∨
    ∀ c ∈ T.toList, keyOf c ≠ key := by
  by_cases hex : ∃ c ∈ T.toList, keyOf c = key
  · obtain ⟨c, hc, hkey⟩ := hex
    obtain ⟨L, L', hlist⟩ := List.append_of_mem hc
    exact .inl ⟨c, L, L', hlist, hkey⟩
  · exact .inr fun c hc hkey => hex ⟨c, hc, hkey⟩

theorem run_add (hv : st.Valid T) (hm : Lists m (items T)) (hfuel : T.height ≤ fuel)
    (f : Item → Item) : ∃ st' T', (AvlOp.add key f).run fuel st = some st' ∧ st'.Valid T' ∧
      Lists ((AvlOp.add key f).onMap m) (items T') ∧
      T'.toList.length ≤ T.toList.length + 1 := by
  obtain ⟨c, L, L', hlist, rfl⟩ | hkey := exists_split T key
  · have hc : c ∈ T.toList := mem_of_split hlist
    obtain ⟨st₁, hadd, hv₁⟩ := avlAdd_found hv hc hfuel
    obtain ⟨T', hv', hlist'⟩ := assign_valid hv₁ hlist f
    refine ⟨_, T', congrArg (Option.map _) hadd, hv', ?_, ?_⟩
    · rw [AvlOp.onMap, hm.some_of_mem hc, items_split hlist']
      rw [items_split hlist] at hm
      exact hm.replace (citem_ne hv.sorted hlist) rfl
    · rw [hlist', hlist, List.length_append, List.length_append]
      exact Nat.le_succ _
  · obtain ⟨p, st₁, T₁, L, L', hadd, hv₁, hlist, hlist₁⟩ := avlAdd_new hv hkey hfuel
    obtain ⟨T', hv', hlist'⟩ := assign_valid hv₁ hlist₁ f
    refine ⟨_, T', congrArg (Option.map _) hadd, hv', ?_, ?_⟩
    · rw [AvlOp.onMap, hm.none_of_absent hkey, items_split hlist']
      rw [items_append hlist] at hm
      exact hm.insert (i := (State.newItem key).update f) (citem_ne hv₁.sorted hlist₁)
    · rw [hlist', hlist, List.length_append, List.length_append]
      exact le_rfl

theorem run_update (hv : st.Valid T) (hm : Lists m (items T)) (hfuel : T.height ≤ fuel)
    (f : Item → Item) : ∃ st' T', (AvlOp.update key f).run fuel st = some st' ∧ st'.Valid T' ∧
      Lists ((AvlOp.update key f).onMap m) (items T') ∧
      T'.toList.length ≤ T.toList.length + 1 := by
  obtain ⟨c, L, L', hlist, rfl⟩ | hkey := exists_split T key
  · have hc : c ∈ T.toList := mem_of_split hlist
    obtain ⟨T', hv', hlist'⟩ := assign_valid hv hlist f
    refine ⟨_, T', ?_, hv', ?_, ?_⟩
    · rw [AvlOp.run, avlFind_found hv hc hfuel, Option.map_some, if_neg (hv.ne_zero hc)]
    · rw [AvlOp.onMap, hm.some_of_mem hc, items_split hlist']
      rw [items_split hlist] at hm
      exact hm.replace (citem_ne hv.sorted hlist) rfl
    · rw [hlist', hlist, List.length_append, List.length_append]
      exact Nat.le_succ _
  · refine ⟨st, T, ?_, hv, ?_, Nat.le_succ _⟩
    · rw [AvlOp.run, avlFind_absent hv hkey hfuel, Option.map_some, if_pos rfl]
    · rw [AvlOp.onMap, hm.none_of_absent hkey, Option.map_none, ← hm.none_of_absent hkey,
        Function.update_eq_self]
      exact hm

theorem run_del (hv : st.Valid T) (hm : Lists m (items T)) (hfuel : T.height ≤ fuel) :
    ∃ st' T', (AvlOp.del key).run fuel st = some st' ∧ st'.Valid T' ∧
      Lists ((AvlOp.del key).onMap m) (items T') ∧ T'.toList.length ≤ T.toList.length + 1 := by
  obtain ⟨c, L, L', hlist, rfl⟩ | hkey := exists_split T key
  · obtain ⟨st', T', L₀, hdel, hv', hlist', hitems⟩ := avlDel_found hv hlist hfuel
    refine ⟨st', T', congrArg (Option.map Prod.snd) hdel, hv', ?_, ?_⟩
    · rw [items_append hlist', hitems]
      rw [items_split hlist] at hm
      exact hm.erase (citem_ne hv.sorted hlist)
    · exact (length_le_of_items hlist hlist' hitems).trans (Nat.le_succ _)
  · obtain ⟨st', hdel, hv'⟩ := avlDel_absent hv hkey hfuel
    refine ⟨st', T, congrArg (Option.map Prod.snd) hdel, hv', ?_, Nat.le_succ _⟩
    rw [AvlOp.onMap, ← hm.none_of_absent hkey, Function.update_eq_self]
    exact hm

end

section

variable {st : State} {m : ℕ → Option Item} {fuel key start stop steps : ℕ} {c : Ptr × Item}
  {L L' : List (Ptr × Item)}

/-- The nodes before a key, and those from it on. -/
theorem exists_from (hsorted : T.Sorted keyOf) (key : ℕ) : ∃ L L', T.toList = L ++ L' ∧
    (∀ c ∈ L, keyOf c < key) ∧ ∀ c ∈ L', key ≤ keyOf c := by
  rw [AvlTree.Sorted] at hsorted
  generalize T.toList = M at hsorted ⊢
  induction M with
  | nil => exact ⟨[], [], rfl, fun _ hc => absurd hc List.not_mem_nil,
      fun _ hc => absurd hc List.not_mem_nil⟩
  | cons a M ih =>
      obtain ⟨hhead, htail⟩ := List.pairwise_cons.mp hsorted
      by_cases hlt : keyOf a < key
      · obtain ⟨L, L', rfl, hbefore, hafter⟩ := ih htail
        refine ⟨a :: L, L', rfl, fun c hc => ?_, hafter⟩
        obtain rfl | hc := List.mem_cons.mp hc
        · exact hlt
        · exact hbefore c hc
      · refine ⟨[], a :: M, rfl, fun _ hc => absurd hc List.not_mem_nil, fun c hc => ?_⟩
        obtain rfl | hc := List.mem_cons.mp hc
        · exact not_lt.mp hlt
        · exact (not_lt.mp hlt).trans (hhead c hc).le

theorem csideDestroyRange_eq (hv : st.Valid T) (hfuel : T.toList.length < fuel) :
    ∃ st' T', st.csideDestroyRange fuel start stop = some st' ∧ st'.Valid T' ∧
      items T' = (items T).filter fun item => ¬Destroyed start stop item := by
  obtain ⟨L, L', hlist, hbefore, hafter⟩ := exists_from hv.sorted start
  have hfirst := avlFirst_eq hv hlist hbefore hafter ((AvlTree.height_le_length T).trans hfuel.le)
  have hsteps : L'.length < fuel := by
    rw [hlist, List.length_append] at hfuel
    omega
  obtain ⟨st', T', hloop, hv', hitems⟩ :=
    destroyFrom_eq stop hv hlist hafter hsteps hfuel.le
  refine ⟨st', T', (congrArg (Option.bind · _) hfirst).trans hloop, hv', ?_⟩
  rw [items, hitems, items_append hlist, List.filter_append,
    List.filter_eq_self (l := L.map Prod.snd).mpr]
  intro item hitem
  obtain ⟨b, hb, rfl⟩ := List.mem_map.mp hitem
  exact decide_eq_true fun hgoes : Destroyed start stop b.2 => (hbefore b hb).not_ge hgoes.2.1

/-- An operation on the tree is the one on the map. -/
theorem run_step (hv : st.Valid T) (hm : Lists m (items T)) (hfuel : T.toList.length < fuel)
    (op : AvlOp) : ∃ st' T', op.run fuel st = some st' ∧ st'.Valid T' ∧
      Lists (op.onMap m) (items T') ∧ T'.toList.length ≤ T.toList.length + 1 := by
  have hheight := (AvlTree.height_le_length T).trans hfuel.le
  cases op with
  | add key f => exact run_add hv hm hheight f
  | update key f => exact run_update hv hm hheight f
  | del key => exact run_del hv hm hheight
  | destroyRange start stop =>
      obtain ⟨st', T', hdestroy, hv', hitems⟩ := csideDestroyRange_eq hv hfuel
      refine ⟨st', T', hdestroy, hv', ?_, ?_⟩
      · rw [hitems]
        exact hm.filter _
      · have hlength := congrArg List.length hitems
        rw [items, List.length_map] at hlength
        rw [hlength]
        refine (List.length_filter_le _ _).trans ?_
        rw [items, List.length_map]
        exact Nat.le_succ _

theorem visitFrom_eq (hv : st.Valid T) (hlist : T.toList = L ++ L') (hsteps : L'.length < steps)
    (hfuel : T.height ≤ fuel) :
    st.heap.visitFrom fuel steps (place 0 L'.head?) = some (L'.map Prod.snd) := by
  induction L' generalizing L steps with
  | nil =>
      obtain ⟨steps, rfl⟩ := Nat.exists_eq_succ_of_ne_zero (Nat.ne_zero_of_lt hsteps)
      rfl
  | cons a M ih =>
      obtain ⟨steps, rfl⟩ := Nat.exists_eq_succ_of_ne_zero (Nat.ne_zero_of_lt hsteps)
      have ha : a ∈ T.toList := mem_of_split hlist
      have hlist' : T.toList = (L ++ [a]) ++ M := by
        rw [hlist, List.append_assoc]
        rfl
      rw [List.head?_cons, place, Heap.visitFrom, if_neg (hv.ne_zero ha),
        avlSucc_eq hv.rep hlist hfuel, hv.item ha]
      exact congrArg (Option.bind · _) (ih hlist' (Nat.lt_of_succ_lt_succ hsteps))

/-- The loop over the nodes meets all of them. -/
theorem visit_eq (hv : st.Valid T) (hfuel : T.toList.length < fuel) :
    st.heap.visit fuel = some (items T) := by
  have hheight := (AvlTree.height_le_length T).trans hfuel.le
  have hfirst : st.heap.avlFirst fuel 0 = some (place 0 T.toList.head?) :=
    avlFirst_eq (L := []) hv rfl (fun _ hc => absurd hc List.not_mem_nil)
      (fun _ _ => Nat.zero_le _) hheight
  exact (congrArg (Option.bind · _) hfirst).trans (visitFrom_eq (L := []) hv rfl hfuel hheight)

theorem find_eq (hv : st.Valid T) (hm : Lists m (items T)) (hfuel : T.height ≤ fuel) (key : ℕ) :
    (st.heap.avlFind fuel key).map st.heap.itemAt = some (m key) := by
  obtain ⟨c, L, L', hlist, rfl⟩ | hkey := exists_split T key
  · have hc : c ∈ T.toList := mem_of_split hlist
    rw [avlFind_found hv hc hfuel, Option.map_some, Heap.itemAt, if_neg (hv.ne_zero hc),
      hv.item hc, hm.some_of_mem hc]
  · rw [avlFind_absent hv hkey hfuel, Option.map_some, hm.none_of_absent hkey]
    rfl

/-- The height is logarithmic in the number of nodes. -/
theorem State.Valid.height_le_of_fib (hv : st.Valid T)
    (hsteps : st.nobjects + 1 < Nat.fib (steps + 3)) : T.height ≤ steps := by
  have hfib := AvlTree.fib_height_le hv.avl
  rw [← hv.count] at hfib
  by_contra hlt
  have hmono : Nat.fib (steps + 3) ≤ Nat.fib (T.height + 2) := Nat.fib_mono (by omega)
  omega

theorem valid_initial (node : Ptr → Node) {chunk : Ptr} (hchunk : 0 < chunk) :
    (State.initial node chunk).Valid .nil where
  rep := trivial
  root := rfl
  avl := trivial
  sorted := List.Pairwise.nil
  pool := ⟨List.nodup_nil, fun _ hp => absurd hp List.not_mem_nil, hchunk⟩
  count := rfl

/-- The run lemma. -/
theorem runOps_valid (ops : List AvlOp) (hv : st.Valid T) (hm : Lists m (items T))
    (hfuel : T.toList.length + ops.length < fuel) : ∃ st' T', runOps fuel ops st = some st' ∧
      st'.Valid T' ∧ Lists (ops.foldl (fun m op => op.onMap m) m) (items T') ∧
      T'.toList.length < fuel := by
  induction ops generalizing st T m with
  | nil => exact ⟨st, T, rfl, hv, hm, hfuel⟩
  | cons op ops ih =>
      rw [List.length_cons] at hfuel
      -- an operation adds one node at most, so that the fuel lasts to the end
      have hless : T.toList.length < fuel := by omega
      obtain ⟨st₁, T₁, hrun, hv₁, hm₁, hlength⟩ := run_step hv hm hless op
      have hless₁ : T₁.toList.length + ops.length < fuel := by omega
      obtain ⟨st', T', hruns, hv', hm', hfuel'⟩ := ih hv₁ hm₁ hless₁
      exact ⟨st', T', (congrArg (Option.bind · _) hrun).trans hruns, hv', hm', hfuel'⟩

end

/-- The map from the keys to the items after some operations. -/
def objects (ops : List AvlOp) : ℕ → Option Item :=
  ops.foldl (fun m op => op.onMap m) fun _ => none

end Lush.Mirror
