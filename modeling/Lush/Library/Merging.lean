import Mathlib

/-!
# Joining points into clusters

Clusters of points are joined one after the other, and each is known by one of its points.
When the cluster of `j` is joined to the cluster of `k`, the new cluster is known by `k`.
The joins are listed with the last one first.

A cluster also has a name: a point is its own name, and the cluster made by the join number
`i` is named `-(i + 1)`.  What connects the joins and their names is that a cluster is joined
once only (`Joinable`).
-/

namespace Lush.Merging

/-- The point by which the cluster of `x` is known. -/
def rep : List (ℕ × ℕ) → ℕ → ℕ
  | [], x => x
  | (j, k) :: js, x => if rep js x = j then k else rep js x

/-- The name of the cluster that is known by `x`. -/
def name : List (ℕ × ℕ) → ℕ → ℤ
  | [], x => x
  | (_, k) :: js, x => if x = k then -((js.length : ℤ) + 1) else name js x

/-- A cluster is known by `x`. -/
def Root (js : List (ℕ × ℕ)) (x : ℕ) : Prop := ∀ p ∈ js, p.1 ≠ x

/-- Every join is of two clusters. -/
def Joinable : List (ℕ × ℕ) → Prop
  | [] => True
  | (j, k) :: js => j ≠ k ∧ Root js j ∧ Root js k ∧ Joinable js

instance (js : List (ℕ × ℕ)) (x : ℕ) : Decidable (Root js x) :=
  inferInstanceAs (Decidable (∀ p ∈ js, p.1 ≠ x))

variable {js ks : List (ℕ × ℕ)} {j k x y n : ℕ}

theorem root_cons : Root ((j, k) :: js) x ↔ j ≠ x ∧ Root js x := by
  simp [Root]

theorem root_append : Root (js ++ ks) x ↔ Root js x ∧ Root ks x := by
  simp only [Root, List.mem_append, or_imp, forall_and]

/-! ## The clusters -/

theorem rep_append (js ks : List (ℕ × ℕ)) (x : ℕ) : rep (js ++ ks) x = rep js (rep ks x) := by
  induction js with
  | nil => rfl
  | cons p js ih =>
      obtain ⟨j, k⟩ := p
      rw [List.cons_append, rep, rep, ih]

theorem rep_root (h : Root js x) : rep js x = x := by
  induction js with
  | nil => rfl
  | cons p js ih =>
      obtain ⟨j, k⟩ := p
      obtain ⟨hj, hroot⟩ := root_cons.mp h
      rw [rep, ih hroot, if_neg hj.symm]

theorem root_rep (h : Joinable js) (x : ℕ) : Root js (rep js x) := by
  induction js with
  | nil => exact fun p hp => absurd hp List.not_mem_nil
  | cons p js ih =>
      obtain ⟨j, k⟩ := p
      obtain ⟨hjk, -, hk, hjs⟩ := h
      rw [rep, root_cons]
      split_ifs with hx
      · exact ⟨hjk, hk⟩
      · exact ⟨Ne.symm hx, ih hjs⟩

theorem rep_eq_self_iff (h : Joinable js) : rep js x = x ↔ Root js x :=
  ⟨fun heq => heq ▸ root_rep h x, rep_root⟩

theorem Joinable.drop (h : Joinable (js ++ ks)) : Joinable ks := by
  induction js with
  | nil => exact h
  | cons p js ih => exact ih h.2.2.2

/-- Two clusters that were joined are one. -/
theorem rep_join (h : Joinable js) (hmem : (j, k) ∈ js) : rep js j = rep js k := by
  obtain ⟨above, below, rfl⟩ := List.append_of_mem hmem
  obtain ⟨hjk, hj, hk, -⟩ := h.drop
  have hbelow : rep ((j, k) :: below) j = rep ((j, k) :: below) k := by
    rw [rep, rep, rep_root hj, rep_root hk, if_pos rfl, if_neg hjk.symm]
  rw [rep_append, rep_append, hbelow]

/-- The points by which clusters are known are among the points that are joined. -/
theorem rep_lt (hjs : ∀ p ∈ js, p.2 < n) (hx : x < n) : rep js x < n := by
  induction js with
  | nil => exact hx
  | cons p js ih =>
      have ih := ih fun q hq => hjs q (List.mem_cons_of_mem _ hq)
      rw [rep]
      split_ifs
      · exact hjs p List.mem_cons_self
      · exact ih

theorem Joinable.nodup (h : Joinable js) : (js.map Prod.fst).Nodup := by
  induction js with
  | nil => exact List.nodup_nil
  | cons p js ih =>
      obtain ⟨j, k⟩ := p
      refine List.nodup_cons.mpr ⟨?_, ih h.2.2.2⟩
      intro hmem
      obtain ⟨q, hq, hqj⟩ := List.mem_map.mp hmem
      exact h.2.1 q hq hqj

/-- Every join leaves one cluster less. -/
theorem card_roots (h : Joinable js) (hjs : ∀ p ∈ js, p.1 < n) :
    {x ∈ Finset.range n | Root js x}.card = n - js.length := by
  have hsub : (js.map Prod.fst).toFinset ⊆ Finset.range n := by
    intro x hx
    obtain ⟨p, hp, rfl⟩ := List.mem_map.mp (List.mem_toFinset.mp hx)
    exact Finset.mem_range.mpr (hjs p hp)
  have hroots : {x ∈ Finset.range n | Root js x} =
      Finset.range n \ (js.map Prod.fst).toFinset := by
    ext x
    rw [Finset.mem_filter, Finset.mem_sdiff, List.mem_toFinset, List.mem_map]
    refine and_congr_right fun _ => ⟨?_, ?_⟩
    · rintro hroot ⟨p, hp, hpx⟩
      exact hroot p hp hpx
    · exact fun hnot p hp hpx => hnot ⟨p, hp, hpx⟩
  calc {x ∈ Finset.range n | Root js x}.card
      = (Finset.range n).card - (js.map Prod.fst).toFinset.card := by
        rw [hroots, Finset.card_sdiff_of_subset hsub]
    _ = n - js.length := by
        rw [Finset.card_range, List.toFinset_card_of_nodup h.nodup, List.length_map]

/-- The labels below `k` are the numbers of the classes of some points, each of them used. -/
structure Numbers (n k : ℕ) (same : ℕ → ℕ → Prop) (labels : ℕ → ℤ) : Prop where
  range : ∀ x < n, 0 ≤ labels x ∧ labels x < k
  same : ∀ x < n, ∀ y < n, (labels x = labels y ↔ same x y)
  used : ∀ c < k, ∃ x < n, labels x = c

/-- There are as many classes as clusters left. -/
theorem Numbers.count_eq {labels : ℕ → ℤ} (h : Numbers n k (fun x y => rep js x = rep js y) labels)
    (hjoin : Joinable js) (hjs : ∀ p ∈ js, p.1 < n ∧ p.2 < n) : k = n - js.length := by
  have hmaps : ∀ x ∈ {x ∈ Finset.range n | Root js x}, (labels x).toNat ∈ Finset.range k := by
    intro x hx
    have := h.range x (Finset.mem_range.mp (Finset.mem_filter.mp hx).1)
    exact Finset.mem_range.mpr (by omega)
  have hinj : ∀ x ∈ {x ∈ Finset.range n | Root js x}, ∀ y ∈ {x ∈ Finset.range n | Root js x},
      (labels x).toNat = (labels y).toNat → x = y := by
    intro x hx y hy heq
    obtain ⟨hxn, hx⟩ := Finset.mem_filter.mp hx
    obtain ⟨hyn, hy⟩ := Finset.mem_filter.mp hy
    have hxn := Finset.mem_range.mp hxn
    have hyn := Finset.mem_range.mp hyn
    have hrx := h.range x hxn
    have hry := h.range y hyn
    have hlabels : labels x = labels y := by omega
    have hreps := (h.same x hxn y hyn).mp hlabels
    rwa [rep_root hx, rep_root hy] at hreps
  have hsurj : ∀ c ∈ Finset.range k, ∃ x ∈ {x ∈ Finset.range n | Root js x},
      (labels x).toNat = c := by
    intro c hc
    obtain ⟨x, hx, heq⟩ := h.used c (Finset.mem_range.mp hc)
    have hlt := rep_lt (fun p hp => (hjs p hp).2) hx
    have hroot := root_rep hjoin x
    have hlabels := (h.same _ hlt x hx).mpr (rep_root hroot)
    refine ⟨rep js x, Finset.mem_filter.mpr ⟨Finset.mem_range.mpr hlt, hroot⟩, ?_⟩
    rw [hlabels, heq, Int.toNat_natCast]
  calc k = (Finset.range k).card := (Finset.card_range k).symm
    _ = {x ∈ Finset.range n | Root js x}.card :=
        (Finset.card_bij (fun x _ => (labels x).toNat) hmaps (fun x hx y hy => hinj x hx y hy)
          fun c hc => (hsurj c hc).imp fun _ hx => ⟨hx.1, hx.2⟩).symm
    _ = n - js.length := card_roots hjoin fun p hp => (hjs p hp).1

/-! ## The names of the clusters -/

theorem neg_length_le_name (js : List (ℕ × ℕ)) (x : ℕ) : -(js.length : ℤ) ≤ name js x := by
  induction js with
  | nil => simp [name]
  | cons p js ih =>
      rw [name, List.length_cons]
      split_ifs
      · push_cast
        omega
      · push_cast
        omega

/-- Different points never have the same name. -/
theorem name_injective (js : List (ℕ × ℕ)) : Function.Injective (name js) := by
  induction js with
  | nil => exact fun x y h => Int.ofNat.inj h
  | cons p js ih =>
      obtain ⟨j, k⟩ := p
      intro x y h
      have hx := neg_length_le_name js x
      have hy := neg_length_le_name js y
      rw [name, name] at h
      split_ifs at h with hxk hyk hyk
      · rw [hxk, hyk]
      · omega
      · omega
      · exact ih h

/-- A cluster that was not made by a join is a point. -/
theorem name_of_nonneg (h : 0 ≤ name js x) : name js x = x := by
  induction js with
  | nil => rfl
  | cons p js ih =>
      rw [name] at h ⊢
      split_ifs at h ⊢ with hx
      · omega
      · exact ih h

theorem name_cons_self : name ((j, k) :: js) k = -((js.length : ℤ) + 1) := if_pos rfl

theorem name_cons_of_ne (h : x ≠ k) : name ((j, k) :: js) x = name js x := if_neg h

end Lush.Merging
