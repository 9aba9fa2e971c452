import Lush.Basic
import Lush.Library.Merging

/-!
# Dendrograms

The second half of single linkage in `mapper-c.c`: `_slink_postprocess` turns the pointers
of the points into merges in the order of their distances, and `mapper_cut_tree_dist` cuts
them at a threshold.

A merge is between two names, of points or of earlier merges.  The labels are given from the
last merge to the first, so that the proofs go along the list of the merges with the last one
first.
-/

namespace Lush.Mapper

open Merging

variable {D : Type}

/-- An entry of `merge_left`, `merge_right` and `merge_dist`. -/
structure Merge (D : Type) where
  left : ℤ
  right : ℤ
  dist : D

/-- The second loop of `_slink_postprocess`, from its round `i` on: the merge of every sorted
node, with the cluster of its pointer. -/
def replay (pi : ℕ → ℕ) : List (ℕ × D) → ℕ → (ℕ → ℤ) → List (Merge D)
  | [], _, _ => []
  | (j, distance) :: nodes, i, idx =>
      ⟨idx j, idx (pi j), distance⟩ ::
        replay pi nodes (i + 1) (Function.update idx (pi j) (-((i : ℤ) + 1)))

/-- `_slink_postprocess`, with the sort of the library. -/
def slinkPostprocess (qsort : List (ℕ × D) → List (ℕ × D)) (n : ℕ) (pi : ℕ → ℕ)
    (lambda : ℕ → D) : List (Merge D) :=
  replay pi (qsort ((List.range (n - 1)).map fun i => (i, lambda i))) 0 fun i => i

/-- The arrays of `mapper_cut_tree`. -/
structure Cut where
  labels : ℕ → ℤ
  nodeid : ℕ → ℤ
  icluster : ℕ

/-- `if (k >= 0) labels[k] = icluster++`. -/
def Cut.split (s : Cut) (k : ℤ) : Cut :=
  if 0 ≤ k then
    { s with labels := Function.update s.labels k.toNat s.icluster, icluster := s.icluster + 1 }
  else s

/-- `if (k < 0) nodeid[-k - 1] = j; else labels[k] = j`. -/
def Cut.assign (s : Cut) (k j : ℤ) : Cut :=
  if k < 0 then { s with nodeid := Function.update s.nodeid (-k - 1).toNat j }
  else { s with labels := Function.update s.labels k.toNat j }

/-- The cluster of the merge `i`, which may be a new one. -/
def Cut.enter (s : Cut) (i : ℕ) : Cut :=
  if s.nodeid i < 0 then
    { s with nodeid := Function.update s.nodeid i s.icluster, icluster := s.icluster + 1 }
  else s

/-- The merges above the cut, from the last one. -/
def cutTop : List (Merge D) → Cut → Cut
  | [], s => s
  | m :: ms, s => cutTop ms ((s.split m.left).split m.right)

/-- The merges below the cut, from the last one; a merge has as many others after it in the
list as its number says. -/
def cutDown : List (Merge D) → Cut → Cut
  | [], s => s
  | m :: ms, s =>
      let s := s.enter ms.length
      let j := s.nodeid ms.length
      cutDown ms ((s.assign m.left j).assign m.right j)

/-- `mapper_cut_tree`, where the merges below the cut are the first `n` ones. -/
def mapperCutTree (nelements : ℕ) (merges : List (Merge D)) (nclusters : ℕ) (labels : ℕ → ℤ) :
    ℕ → ℤ :=
  let n := nelements - nclusters
  (cutDown (merges.take n).reverse
    (cutTop (merges.drop n).reverse ⟨labels, fun _ => -1, 0⟩)).labels

/-- The merges that are not above the threshold, up to the first one that is. -/
def countBelow [LinearOrder D] (threshold : D) : List (Merge D) → ℕ
  | [] => 0
  | m :: ms => if m.dist ≤ threshold then countBelow threshold ms + 1 else 0

/-- `mapper_cut_tree_dist`, with the number of clusters and the labels. -/
def mapperCutTreeDist [LinearOrder D] (nelements : ℕ) (merges : List (Merge D)) (threshold : D)
    (labels : ℕ → ℤ) : ℕ × (ℕ → ℤ) :=
  let nclusters := nelements - countBelow threshold merges
  (nclusters, mapperCutTree nelements merges nclusters labels)

/-! ## The merges and the joins -/

variable {pi : ℕ → ℕ}

/-- The joins of some nodes. -/
def joins (pi : ℕ → ℕ) (nodes : List (ℕ × D)) : List (ℕ × ℕ) :=
  nodes.map fun node => (node.1, pi node.1)

/-- The merges of some nodes, both with the last one first. -/
def named (pi : ℕ → ℕ) : List (ℕ × D) → List (Merge D)
  | [] => []
  | (j, distance) :: nodes =>
      ⟨name (joins pi nodes) j, name (joins pi nodes) (pi j), distance⟩ :: named pi nodes

theorem length_joins (pi : ℕ → ℕ) (nodes : List (ℕ × D)) :
    (joins pi nodes).length = nodes.length := List.length_map ..

theorem length_named (pi : ℕ → ℕ) (nodes : List (ℕ × D)) :
    (named pi nodes).length = nodes.length := by
  induction nodes with
  | nil => rfl
  | cons node nodes ih => rw [named, List.length_cons, List.length_cons, ih]

theorem replay_named (nodes done : List (ℕ × D)) :
    (replay pi nodes done.length (name (joins pi done))).reverse ++ named pi done =
      named pi (nodes.reverse ++ done) := by
  induction nodes generalizing done with
  | nil => rfl
  | cons node nodes ih =>
      obtain ⟨j, distance⟩ := node
      have hname : Function.update (name (joins pi done)) (pi j) (-((done.length : ℤ) + 1)) =
          name (joins pi ((j, distance) :: done)) := by
        funext x
        by_cases hx : x = pi j
        · subst hx
          rw [Function.update_self, ← length_joins pi done]
          exact name_cons_self.symm
        · rw [Function.update_of_ne hx]
          exact (name_cons_of_ne hx).symm
      calc (replay pi ((j, distance) :: nodes) done.length (name (joins pi done))).reverse ++
            named pi done
          = (replay pi nodes (done.length + 1) (name (joins pi ((j, distance) :: done)))).reverse ++
              named pi ((j, distance) :: done) := by
            rw [replay, hname, List.reverse_cons, List.append_assoc]
            rfl
        _ = named pi (((j, distance) :: nodes).reverse ++ done) := by
            rw [← List.length_cons, ih, List.reverse_cons, List.append_assoc]
            rfl

/-- The merges, with the last one first. -/
theorem reverse_replay (nodes : List (ℕ × D)) :
    (replay pi nodes 0 fun i => i).reverse = named pi nodes.reverse := by
  calc (replay pi nodes 0 fun i => i).reverse
      = (replay pi nodes ([] : List (ℕ × D)).length (name (joins pi ([] : List (ℕ × D))))).reverse ++
          named pi [] := (List.append_nil _).symm
    _ = named pi nodes.reverse := by rw [replay_named, List.append_nil]

theorem drop_named (above below : List (ℕ × D)) :
    (named pi (above ++ below)).drop above.length = named pi below := by
  induction above with
  | nil => rfl
  | cons node above ih => exact ih

/-! ## Above the cut -/

/-- The cluster that is known by `x` is the point `x` alone. -/
def Single (js : List (ℕ × ℕ)) (x : ℕ) : Prop := Root js x ∧ 0 ≤ name js x

/-- The points of a set have the labels below `icluster`, each its own. -/
structure Numbered (points : ℕ → Prop) (s : Cut) : Prop where
  range : ∀ x, points x → 0 ≤ s.labels x ∧ s.labels x < s.icluster
  inj : ∀ x y, points x → points y → s.labels x = s.labels y → x = y
  surj : ∀ c : ℕ, c < s.icluster → ∃ x, points x ∧ s.labels x = c

variable {points points' : ℕ → Prop} {s : Cut} {js full : List (ℕ × ℕ)} {j k n : ℕ}

/-- One side of a merge above the cut. -/
theorem Numbered.split {x : ℕ} {name : ℤ} (h : Numbered points s) (hx : ¬points x)
    (hname : 0 ≤ name → name = x) (hpoints : ∀ y, points' y ↔ points y ∨ y = x ∧ 0 ≤ name) :
    Numbered points' (s.split name) := by
  unfold Cut.split
  split_ifs with hnonneg
  · have hk : name.toNat = x := by
      have := hname hnonneg
      omega
    have hold : ∀ y, points y → y ≠ x := fun y hy hyx => hx (hyx ▸ hy)
    rw [hk]
    refine ⟨fun y hy => ?_, fun y z hy hz heq => ?_, fun c hc => ?_⟩
    · rcases (hpoints y).mp hy with hy | ⟨rfl, -⟩
      · have := h.range y hy
        simp only [Function.update_of_ne (hold y hy)]
        push_cast
        omega
      · simp
    · change Function.update s.labels x s.icluster y = Function.update s.labels x s.icluster z at heq
      -- the new label is none of the old ones
      have hlabel : ∀ z, points z → s.labels z ≠ s.icluster := by
        intro z hz
        have := h.range z hz
        omega
      rcases (hpoints y).mp hy with hy | ⟨rfl, -⟩ <;> rcases (hpoints z).mp hz with hz | ⟨rfl, -⟩
      · refine h.inj y z hy hz ?_
        simpa [Function.update_of_ne (hold y hy), Function.update_of_ne (hold z hz)] using heq
      · rw [Function.update_of_ne (hold y hy), Function.update_self] at heq
        exact absurd heq (hlabel y hy)
      · rw [Function.update_of_ne (hold z hz), Function.update_self] at heq
        exact absurd heq.symm (hlabel z hz)
      · rfl
    · rcases Nat.lt_succ_iff_lt_or_eq.mp hc with hlt | rfl
      · obtain ⟨y, hy, heq⟩ := h.surj c hlt
        exact ⟨y, (hpoints y).mpr (.inl hy), by simpa [Function.update_of_ne (hold y hy)] using heq⟩
      · exact ⟨x, (hpoints x).mpr (.inr ⟨rfl, hnonneg⟩), by simp⟩
  · have heq : points' = points := by
      funext y
      exact propext ((hpoints y).trans (or_iff_left fun hy => hnonneg hy.2))
    rwa [heq]

/-- A join takes the points it is of from those that are alone. -/
theorem single_iff (hjoin : Joinable ((j, k) :: js)) (x : ℕ) :
    Single js x ↔ (Single ((j, k) :: js) x ∨ x = j ∧ 0 ≤ name js j) ∨ x = k ∧ 0 ≤ name js k := by
  obtain ⟨hjk, hj, hk, -⟩ := hjoin
  by_cases hxk : x = k
  · subst hxk
    simp only [Single, name_cons_self, hk, true_and]
    refine ⟨.inr, ?_⟩
    rintro ((⟨-, hneg⟩ | ⟨hxj, -⟩) | hname)
    · omega
    · exact absurd hxj.symm hjk
    · exact hname
  · by_cases hxj : x = j
    · subst hxj
      simp [Single, root_cons, hj, hjk]
    · simp [Single, root_cons, name_cons_of_ne hxk, Ne.symm hxj, hxj, hxk]

theorem not_single_join (js : List (ℕ × ℕ)) (j k : ℕ) :
    ¬Single ((j, k) :: js) j ∧ ¬Single ((j, k) :: js) k := by
  refine ⟨fun h => (root_cons.mp h.1).1 rfl, fun h => ?_⟩
  have hneg := h.2
  rw [name_cons_self] at hneg
  omega

/-- The merges above the cut number the points that the others leave alone. -/
theorem cutTop_numbered {above below : List (ℕ × D)}
    (hjoin : Joinable (joins pi (above ++ below)))
    (hlt : ∀ p ∈ joins pi (above ++ below), p.1 < n ∧ p.2 < n)
    (h : Numbered (fun x => x < n ∧ Single (joins pi (above ++ below)) x) s) :
    Numbered (fun x => x < n ∧ Single (joins pi below) x)
        (cutTop ((named pi (above ++ below)).take above.length) s) := by
  induction above generalizing s with
  | nil => exact h
  | cons node above ih =>
      obtain ⟨j, distance⟩ := node
      have hjoin' : Joinable ((j, pi j) :: joins pi (above ++ below)) := hjoin
      obtain ⟨hj, hk⟩ := hlt (j, pi j) List.mem_cons_self
      obtain ⟨hnj, hnk⟩ := not_single_join (joins pi (above ++ below)) j (pi j)
      refine ih hjoin'.2.2.2 (fun p hp => hlt p (List.mem_cons_of_mem _ hp)) ?_
      have hleft : Numbered (fun x => (x < n ∧ Single ((j, pi j) :: joins pi (above ++ below)) x) ∨
          x = j ∧ 0 ≤ name (joins pi (above ++ below)) j)
          (s.split (name (joins pi (above ++ below)) j)) :=
        Numbered.split h (fun hc => hnj hc.2) name_of_nonneg fun y => Iff.rfl
      refine hleft.split (x := pi j) ?_ name_of_nonneg fun y => ?_
      · rintro (⟨-, hc⟩ | ⟨hc, -⟩)
        · exact hnk hc
        · exact hjoin'.1 hc.symm
      · rw [single_iff hjoin' y]
        constructor
        · rintro ⟨hy, (hs | hyj) | hyk⟩
          · exact .inl (.inl ⟨hy, hs⟩)
          · exact .inl (.inr hyj)
          · exact .inr hyk
        · rintro ((⟨hy, hs⟩ | ⟨rfl, hyj⟩) | ⟨rfl, hyk⟩)
          · exact ⟨hy, .inl (.inl hs)⟩
          · exact ⟨hj, .inl (.inr ⟨rfl, hyj⟩)⟩
          · exact ⟨hk, .inr ⟨rfl, hyk⟩⟩

/-! ## Below the cut -/

/-- The label or the number at a name. -/
def Cut.at (s : Cut) (name : ℤ) : ℤ :=
  if name < 0 then s.nodeid (-name - 1).toNat else s.labels name.toNat

theorem Cut.at_assign (s : Cut) (name name' c : ℤ) :
    (s.assign name c).at name' = if name' = name then c else s.at name' := by
  unfold Cut.assign Cut.at
  by_cases hneg : name < 0 <;> by_cases hneg' : name' < 0
  · have hnat : (-name' - 1).toNat = (-name - 1).toNat ↔ name' = name := by omega
    simp only [if_pos hneg, if_pos hneg', Function.update_apply, hnat]
  · have hne : name' ≠ name := by omega
    simp [hneg, hneg', hne]
  · have hne : name' ≠ name := by omega
    simp [hneg, hneg', hne]
  · have hnat : name'.toNat = name.toNat ↔ name' = name := by omega
    simp [hneg, hneg', Function.update_apply, hnat]

@[simp] theorem Cut.icluster_assign (s : Cut) (name c : ℤ) :
    (s.assign name c).icluster = s.icluster := by
  unfold Cut.assign
  split_ifs <;> rfl

theorem Cut.at_join (s : Cut) (i : ℕ) : s.at (-((i : ℤ) + 1)) = s.nodeid i := by
  have hneg : -((i : ℤ) + 1) < 0 := by omega
  have hnat : (-(-((i : ℤ) + 1)) - 1).toNat = i := by omega
  rw [Cut.at, if_pos hneg, hnat]

theorem Cut.enter_eq (s : Cut) (i : ℕ) :
    s.enter i = if s.at (-((i : ℤ) + 1)) < 0 then
      { s.assign (-((i : ℤ) + 1)) s.icluster with icluster := s.icluster + 1 } else s := by
  have hneg : -((i : ℤ) + 1) < 0 := by omega
  have hnat : (-(-((i : ℤ) + 1)) - 1).toNat = i := by omega
  rw [Cut.at_join, Cut.enter, Cut.assign, if_pos hneg, hnat]

/-- Some clusters are numbered by their classes, which are joins of clusters.  A cluster that
has no number yet is a class of its own. -/
structure Labelled (roots known : ℕ → Prop) (label : ℕ → ℤ) (cls : ℕ → ℕ) (count : ℕ) :
    Prop where
  range : ∀ x, roots x → known x → 0 ≤ label x ∧ label x < count
  same : ∀ x y, roots x → roots y → known x → known y → (label x = label y ↔ cls x = cls y)
  alone : ∀ x y, roots x → roots y → ¬known x → cls x = cls y → x = y
  surj : ∀ c : ℕ, c < count → ∃ x, roots x ∧ known x ∧ label x = c

section Labelled

variable {roots roots' known known' : ℕ → Prop} {label label' : ℕ → ℤ} {cls : ℕ → ℕ}
  {count : ℕ}

/-- A cluster without a number gets the next one. -/
theorem Labelled.number (h : Labelled roots known label cls count) (hk : roots k)
    (hunknown : ¬known k) (hlabel : ∀ x, label' x = if x = k then (count : ℤ) else label x)
    (hknown : ∀ x, known' x ↔ known x ∨ x = k) : Labelled roots known' label' cls (count + 1) := by
  have hnew : label' k = count := by rw [hlabel, if_pos rfl]
  have hold : ∀ x, known x → label' x = label x := by
    intro x hx
    have hxk : x ≠ k := fun hxk => hunknown (hxk ▸ hx)
    rw [hlabel, if_neg hxk]
  refine ⟨fun x hx hxk => ?_, fun x y hx hy hxk hyk => ?_, fun x y hx hy hxk => ?_,
    fun c hc => ?_⟩
  · rcases (hknown x).mp hxk with hxk | rfl
    · have := h.range x hx hxk
      rw [hold x hxk]
      omega
    · rw [hnew]
      omega
  · rcases (hknown x).mp hxk with hxk | rfl <;> rcases (hknown y).mp hyk with hyk | rfl
    · rw [hold x hxk, hold y hyk]
      exact h.same x y hx hy hxk hyk
    · have := h.range x hx hxk
      rw [hold x hxk, hnew]
      refine ⟨fun heq => by omega, fun heq => ?_⟩
      obtain rfl := h.alone y x hy hx hunknown heq.symm
      exact absurd hxk hunknown
    · have := h.range y hy hyk
      rw [hold y hyk, hnew]
      refine ⟨fun heq => by omega, fun heq => ?_⟩
      obtain rfl := h.alone x y hx hy hunknown heq
      exact absurd hyk hunknown
    · exact ⟨fun _ => rfl, fun _ => rfl⟩
  · exact h.alone x y hx hy fun hk => hxk ((hknown x).mpr (.inl hk))
  · rcases Nat.lt_succ_iff_lt_or_eq.mp hc with hlt | rfl
    · obtain ⟨x, hx, hxk, heq⟩ := h.surj c hlt
      exact ⟨x, hx, (hknown x).mpr (.inl hxk), by rw [hold x hxk, heq]⟩
    · exact ⟨k, hk, (hknown k).mpr (.inr rfl), hnew⟩

/-- The two clusters of a join get the number of the cluster it made. -/
theorem Labelled.unjoin (h : Labelled roots known label cls count) (hk : roots k) (hkk : known k)
    (hj : ¬roots j) (hcls : cls j = cls k) (hroots : ∀ x, roots' x ↔ roots x ∨ x = j)
    (hlabel : ∀ x, roots' x → label' x = if x = j ∨ x = k then label k else label x)
    (hknown : ∀ x, roots' x → (known' x ↔ known x ∨ x = j)) (hknownj : known' j) :
    Labelled roots' known' label' cls count := by
  -- every cluster has the number and the class of one that was there
  let φ : ℕ → ℕ := fun x => if x = j then k else x
  have hφ : ∀ x, roots' x → known' x → roots (φ x) ∧ known (φ x) ∧ label' x = label (φ x) := by
    intro x hx hxk
    by_cases hxj : x = j
    · subst hxj
      refine ⟨?_, ?_, ?_⟩
      · simpa [φ] using hk
      · simpa [φ] using hkk
      · rw [hlabel x hx]
        simp [φ]
    · have hroot := ((hroots x).mp hx).resolve_right hxj
      have hold := ((hknown x hx).mp hxk).resolve_right hxj
      refine ⟨?_, ?_, ?_⟩
      · simpa [φ, hxj] using hroot
      · simpa [φ, hxj] using hold
      · rw [hlabel x hx]
        by_cases hxk : x = k <;> simp [φ, hxj, hxk]
  have hφcls : ∀ x, cls (φ x) = cls x := by
    intro x
    by_cases hxj : x = j <;> simp [φ, hxj, hcls]
  refine ⟨fun x hx hxk => ?_, fun x y hx hy hxk hyk => ?_, fun x y hx hy hxk heq => ?_,
    fun c hc => ?_⟩
  · obtain ⟨hroot, hold, heq⟩ := hφ x hx hxk
    rw [heq]
    exact h.range _ hroot hold
  · obtain ⟨hrootx, holdx, heqx⟩ := hφ x hx hxk
    obtain ⟨hrooty, holdy, heqy⟩ := hφ y hy hyk
    rw [heqx, heqy, h.same _ _ hrootx hrooty holdx holdy, hφcls, hφcls]
  · have hxj : x ≠ j := fun hxj => hxk (hxj ▸ hknownj)
    have hroot := ((hroots x).mp hx).resolve_right hxj
    have hold : ¬known x := fun hold => hxk ((hknown x hx).mpr (.inl hold))
    by_cases hyj : y = j
    · subst hyj
      have hxk' := h.alone x k hroot hk hold (heq.trans hcls)
      exact absurd (hxk' ▸ hkk) hold
    · exact h.alone x y hroot (((hroots y).mp hy).resolve_right hyj) hold heq
  · obtain ⟨x, hx, hxk, heq⟩ := h.surj c hc
    have hx' := (hroots x).mpr (.inl hx)
    refine ⟨x, hx', (hknown x hx').mpr (.inl hxk), ?_⟩
    have hxj : x ≠ j := fun hxj => hj (hxj ▸ hx)
    rw [hlabel x hx', ← heq]
    by_cases hxk : x = k <;> simp [hxj, hxk]

end Labelled

/-- The cluster known by `x` has a number: points have theirs from above the cut. -/
def Known (s : Cut) (js : List (ℕ × ℕ)) (x : ℕ) : Prop := 0 ≤ name js x ∨ 0 ≤ s.at (name js x)

/-- The clusters of some of the joins `full` are numbered by the clusters of all of them. -/
def Propagated (n : ℕ) (full js : List (ℕ × ℕ)) (s : Cut) : Prop :=
  Labelled (fun x => x < n ∧ Root js x) (Known s js) (fun x => s.at (name js x)) (rep full)
    s.icluster

/-- The cluster of a merge has a number when its members are labelled. -/
theorem Propagated.enter (h : Propagated n full ((j, k) :: js) s) (hk : k < n)
    (hroot : Root ((j, k) :: js) k) :
    Propagated n full ((j, k) :: js) (s.enter js.length) ∧
      Known (s.enter js.length) ((j, k) :: js) k := by
  have hneg : name ((j, k) :: js) k < 0 := by
    rw [name_cons_self]
    omega
  rw [Cut.enter_eq, ← name_cons_self (j := j) (k := k)]
  split_ifs with hunset
  · have hat : ∀ x, Cut.at { s.assign (name ((j, k) :: js) k) s.icluster with
        icluster := s.icluster + 1 } (name ((j, k) :: js) x) =
          if x = k then (s.icluster : ℤ) else s.at (name ((j, k) :: js) x) := by
      intro x
      have hassign := Cut.at_assign s (name ((j, k) :: js) k) (name ((j, k) :: js) x) s.icluster
      simp only [(name_injective ((j, k) :: js)).eq_iff] at hassign
      exact hassign
    have hknown : ∀ x, Known { s.assign (name ((j, k) :: js) k) s.icluster with
        icluster := s.icluster + 1 } ((j, k) :: js) x ↔ Known s ((j, k) :: js) x ∨ x = k := by
      intro x
      rw [Known, hat, Known]
      by_cases hx : x = k <;> simp [hx]
    have hunknown : ¬Known s ((j, k) :: js) k := by
      rintro (hnonneg | hnonneg) <;> omega
    exact ⟨h.number ⟨hk, hroot⟩ hunknown hat hknown, (hknown k).mpr (.inr rfl)⟩
  · exact ⟨h, .inr (by omega)⟩

/-- The members of a merge get its number. -/
theorem Propagated.members (h : Propagated n full ((j, k) :: js) s) (hj : j < n) (hk : k < n)
    (hjoin : Joinable ((j, k) :: js)) (hknown : Known s ((j, k) :: js) k)
    (hrep : rep full j = rep full k) :
    Propagated n full js
      ((s.assign (name js j) (s.nodeid js.length)).assign (name js k) (s.nodeid js.length)) := by
  obtain ⟨hjk, hrootj, hrootk, -⟩ := hjoin
  have hc : s.nodeid js.length = s.at (name ((j, k) :: js) k) := by
    rw [name_cons_self, Cut.at_join]
  have hpos : 0 ≤ s.nodeid js.length := by
    rw [hc]
    rcases hknown with hnonneg | hnonneg
    · rw [name_cons_self] at hnonneg
      omega
    · exact hnonneg
  have hat : ∀ x, Cut.at ((s.assign (name js j) (s.nodeid js.length)).assign (name js k)
      (s.nodeid js.length)) (name js x) = if x = j ∨ x = k then s.at (name ((j, k) :: js) k)
        else s.at (name ((j, k) :: js) x) := by
    intro x
    rw [Cut.at_assign, Cut.at_assign, hc]
    simp only [(name_injective js).eq_iff]
    by_cases hxk : x = k
    · simp [hxk]
    · rw [name_cons_of_ne hxk]
      by_cases hxj : x = j <;> simp [hxj, hxk]
  have hnames : ∀ x, x ≠ k → name ((j, k) :: js) x = name js x := fun x hx => name_cons_of_ne hx
  unfold Propagated
  rw [Cut.icluster_assign, Cut.icluster_assign]
  refine Labelled.unjoin h (j := j) (k := k) ⟨hk, root_cons.mpr ⟨hjk, hrootk⟩⟩ hknown
    (fun hroot => (root_cons.mp hroot.2).1 rfl) hrep (fun x => ?_) (fun x _ => hat x)
    (fun x _ => ?_) ?_
  · rw [root_cons]
    by_cases hxj : x = j
    · simp [hxj, hj, hrootj]
    · simp [hxj, Ne.symm hxj]
  · unfold Known
    rw [hat, ← hc]
    by_cases hxk : x = k
    · subst hxk
      simp [hpos, ← hc]
    · by_cases hxj : x = j <;> simp [hxj, hxk, hnames, hpos]
  · right
    rw [hat, if_pos (.inl rfl), ← hc]
    exact hpos

/-- Below the cut the numbers go down to the points. -/
theorem cutDown_propagated {nodes above : List (ℕ × D)}
    (hjoin : Joinable (joins pi (above ++ nodes)))
    (hlt : ∀ p ∈ joins pi (above ++ nodes), p.1 < n ∧ p.2 < n)
    (h : Propagated n (joins pi (above ++ nodes)) (joins pi nodes) s) :
    Propagated n (joins pi (above ++ nodes)) [] (cutDown (named pi nodes) s) := by
  induction nodes generalizing above s with
  | nil => exact h
  | cons node nodes ih =>
      obtain ⟨j, distance⟩ := node
      have hmem : (j, pi j) ∈ joins pi (above ++ (j, distance) :: nodes) := by
        simp [joins]
      obtain ⟨hj, hk⟩ := hlt _ hmem
      have hlow : Joinable ((j, pi j) :: joins pi nodes) := by
        have happend : joins pi (above ++ (j, distance) :: nodes) =
            joins pi above ++ ((j, pi j) :: joins pi nodes) := by simp [joins]
        rw [happend] at hjoin
        exact hjoin.drop
      have hroot : Root ((j, pi j) :: joins pi nodes) (pi j) :=
        root_cons.mpr ⟨hlow.1, hlow.2.2.1⟩
      have hcons : Propagated n (joins pi (above ++ (j, distance) :: nodes))
          ((j, pi j) :: joins pi nodes) s := h
      obtain ⟨hentered, hknown⟩ := hcons.enter hk hroot
      have hmembers := hentered.members hj hk hlow hknown (rep_join hjoin hmem)
      have hsnoc : above ++ (j, distance) :: nodes = (above ++ [(j, distance)]) ++ nodes := by simp
      rw [hsnoc] at hjoin hlt hmembers ⊢
      have hih := ih hjoin hlt hmembers
      rw [named, cutDown, length_named]
      rw [length_joins] at hih
      exact hih

/-- The numbers of the clusters at the cut go down to the points. -/
theorem Propagated.cutDown {nodes : List (ℕ × D)} (hjoin : Joinable (joins pi nodes))
    (hlt : ∀ p ∈ joins pi nodes, p.1 < n ∧ p.2 < n)
    (h : Propagated n (joins pi nodes) (joins pi nodes) s) :
    Propagated n (joins pi nodes) [] (cutDown (named pi nodes) s) := by
  have hall : Propagated n (joins pi ([] ++ nodes)) [] (Mapper.cutDown (named pi nodes) s) :=
    cutDown_propagated hjoin hlt h
  exact hall

/-! ## The cut -/

theorem cutTop_nodeid (merges : List (Merge D)) (s : Cut) : (cutTop merges s).nodeid = s.nodeid := by
  have hsplit : ∀ (s : Cut) (name : ℤ), (s.split name).nodeid = s.nodeid := by
    intro s name
    unfold Cut.split
    split_ifs <;> rfl
  induction merges generalizing s with
  | nil => rfl
  | cons m merges ih => rw [cutTop, ih, hsplit, hsplit]

/-- At the cut the clusters that are single points have numbers. -/
theorem Numbered.propagated (h : Numbered (fun x => x < n ∧ Single js x) s)
    (hnodeid : s.nodeid = fun _ => -1) : Propagated n js js s := by
  have hknown : ∀ x, Known s js x ↔ 0 ≤ name js x := by
    intro x
    refine or_iff_left_of_imp fun hat => ?_
    by_contra hneg
    rw [Cut.at, if_pos (not_le.mp hneg), hnodeid] at hat
    change (0 : ℤ) ≤ -1 at hat
    omega
  have hat : ∀ x, 0 ≤ name js x → s.at (name js x) = s.labels x := by
    intro x hx
    rw [Cut.at, if_neg (not_lt.mpr hx), name_of_nonneg hx, Int.toNat_natCast]
  refine ⟨fun x hx hxk => ?_, fun x y hx hy hxk hyk => ?_, fun x y hx hy hxk heq => ?_,
    fun c hc => ?_⟩
  · have hname := (hknown x).mp hxk
    rw [hat x hname]
    exact h.range x ⟨hx.1, hx.2, hname⟩
  · have hxname := (hknown x).mp hxk
    have hyname := (hknown y).mp hyk
    rw [hat x hxname, hat y hyname, rep_root hx.2, rep_root hy.2]
    exact ⟨h.inj x y ⟨hx.1, hx.2, hxname⟩ ⟨hy.1, hy.2, hyname⟩, fun heq => heq ▸ rfl⟩
  · rwa [rep_root hx.2, rep_root hy.2] at heq
  · obtain ⟨x, ⟨hxn, hx, hname⟩, heq⟩ := h.surj c hc
    exact ⟨x, ⟨hxn, hx⟩, (hknown x).mpr hname, by rw [hat x hname, heq]⟩

/-- When all joins are undone, the numbers are those of the points. -/
theorem Propagated.numbers (h : Propagated n full [] s) :
    Numbers n s.icluster (fun x y => rep full x = rep full y) s.labels := by
  have hroot : ∀ x, Root [] x := fun x p hp => absurd hp List.not_mem_nil
  have hname : ∀ x : ℕ, 0 ≤ name [] x := fun x => Int.natCast_nonneg x
  have hat : ∀ x, s.at (name [] x) = s.labels x := fun x => if_neg (not_lt.mpr (hname x))
  refine ⟨fun x hx => ?_, fun x hx y hy => ?_, fun c hc => ?_⟩
  · rw [← hat x]
    exact h.range x ⟨hx, hroot x⟩ (.inl (hname x))
  · rw [← hat x, ← hat y]
    exact h.same x y ⟨hx, hroot x⟩ ⟨hy, hroot y⟩ (.inl (hname x)) (.inl (hname y))
  · obtain ⟨x, ⟨hx, -⟩, -, heq⟩ := h.surj c hc
    exact ⟨x, hx, by rwa [hat x] at heq⟩

/-- **The labels of a cut.**  When every point is joined to another one, the points get the
labels below the number of clusters, each of them used, and two points have one label when
the joins below the cut put them in one cluster. -/
theorem mapperCutTree_numbers {nodes : List (ℕ × D)} {below : ℕ} (hbelow : below ≤ nodes.length)
    (hn : nodes.length ≤ n) (hjoin : Joinable (joins pi nodes.reverse))
    (hlt : ∀ p ∈ joins pi nodes.reverse, p.1 < n ∧ p.2 < n)
    (hall : ∀ x < n, ¬Single (joins pi nodes.reverse) x) (labels : ℕ → ℤ) :
    Numbers n (n - below)
      (fun x y => rep (joins pi (nodes.take below).reverse) x =
        rep (joins pi (nodes.take below).reverse) y)
      (mapperCutTree n (replay pi nodes 0 fun i => i) (n - below) labels) := by
  have hnodes : nodes.reverse = (nodes.drop below).reverse ++ (nodes.take below).reverse := by
    rw [← List.reverse_append, List.take_append_drop]
  have hlength : (replay pi nodes 0 fun i => i).length = nodes.length := by
    rw [← List.length_reverse, reverse_replay, length_named, List.length_reverse]
  have habove : nodes.length - below = (nodes.drop below).reverse.length := by
    rw [List.length_reverse, List.length_drop]
  -- the two loops get the merges above and below the cut
  have htop : ((replay pi nodes 0 fun i => i).drop below).reverse =
      (named pi ((nodes.drop below).reverse ++ (nodes.take below).reverse)).take
        (nodes.drop below).reverse.length := by
    rw [List.reverse_drop, reverse_replay, hlength, habove, hnodes]
  have hdown : ((replay pi nodes 0 fun i => i).take below).reverse =
      named pi (nodes.take below).reverse := by
    rw [List.reverse_take, reverse_replay, hlength, habove, hnodes, drop_named]
  rw [hnodes] at hjoin hlt hall
  have hstart : Numbered (fun x => x < n ∧
      Single (joins pi ((nodes.drop below).reverse ++ (nodes.take below).reverse)) x)
      ⟨labels, fun _ => -1, 0⟩ :=
    ⟨fun x hx => absurd hx.2 (hall x hx.1), fun x _ hx => absurd hx.2 (hall x hx.1),
      fun c hc => absurd hc (Nat.not_lt_zero c)⟩
  have hnumbered := cutTop_numbered hjoin hlt hstart
  have hcut := hnumbered.propagated (cutTop_nodeid _ _)
  have hkept : joins pi ((nodes.drop below).reverse ++ (nodes.take below).reverse) =
      joins pi (nodes.drop below).reverse ++ joins pi (nodes.take below).reverse := List.map_append
  rw [hkept] at hjoin hlt
  have hjoin := hjoin.drop
  have hlt : ∀ p ∈ joins pi (nodes.take below).reverse, p.1 < n ∧ p.2 < n :=
    fun p hp => hlt p (List.mem_append_right _ hp)
  have hnumbers := (hcut.cutDown hjoin hlt).numbers
  have hlen : (joins pi (nodes.take below).reverse).length = below := by
    rw [length_joins, List.length_reverse, List.length_take, min_eq_left hbelow]
  have hcount := hnumbers.count_eq hjoin hlt
  rw [hlen] at hcount
  have hsub : n - (n - below) = below := by omega
  unfold mapperCutTree
  simp only [hsub, htop, hdown]
  rw [hcount] at hnumbers
  exact hnumbers

end Lush.Mapper
