import Mathlib

/-!
# Walking along two sorted lists

A walk passes the elements of two sorted lists in ascending order.  When both lists have an
element at the front that is the same, it passes both at once.  So it comes to the points
where all elements up to some value have been passed (`upTo`), and where as many copies of
the value have been passed in both lists as there are in both (`paired`).  For a function
that is largest at the ends of the straight parts of a walk, no other point counts
(`Walk.le_of_points`).
-/

namespace Lush.JointWalk

variable {α K : Type} [LinearOrder α] [LinearOrder K]

/-- The point at which a walk from `p` along `l₁` and `l₂` has passed the values up to `v`. -/
def upTo (l₁ l₂ : List α) (p : ℕ × ℕ) (v : α) : ℕ × ℕ :=
  (p.1 + l₁.countP (· ≤ v), p.2 + l₂.countP (· ≤ v))

/-- The point at which it has passed the values below `v`, and the pairs of copies of `v`. -/
def paired (l₁ l₂ : List α) (p : ℕ × ℕ) (v : α) : ℕ × ℕ :=
  (p.1 + l₁.countP (· < v) + min (l₁.count v) (l₂.count v),
    p.2 + l₂.countP (· < v) + min (l₁.count v) (l₂.count v))

/-- One step of a walk. -/
inductive Step : List α → List α → ℕ × ℕ → List α → List α → ℕ × ℕ → Prop
  | both (a : α) (l₁ l₂ : List α) (p : ℕ × ℕ) :
      Step (a :: l₁) (a :: l₂) p l₁ l₂ (p.1 + 1, p.2 + 1)
  | first (a : α) (l₁ l₂ : List α) (p : ℕ × ℕ) (h : ∀ b ∈ l₂, a < b) :
      Step (a :: l₁) l₂ p l₁ l₂ (p.1 + 1, p.2)
  | second (b : α) (l₁ l₂ : List α) (p : ℕ × ℕ) (h : ∀ a ∈ l₁, b < a) :
      Step l₁ (b :: l₂) p l₁ l₂ (p.1, p.2 + 1)

/-- A walk to the end, which keeps the largest value of a function after its steps. -/
inductive Walk (f : ℕ × ℕ → K) : List α → List α → ℕ × ℕ → K → K → Prop
  | stop (p : ℕ × ℕ) (d : K) : Walk f [] [] p d d
  | step {l₁ l₂ l₁' l₂' : List α} {p p' : ℕ × ℕ} {d D : K} (hstep : Step l₁ l₂ p l₁' l₂' p')
      (hwalk : Walk f l₁' l₂' p' (max d (f p')) D) : Walk f l₁ l₂ p d D

/-- On a straight part, the function is not greater than at one of the ends. -/
def Straight (f : ℕ × ℕ → K) : Prop :=
  ∀ (p : ℕ × ℕ) (d e m : ℕ), 0 < m →
    f (p.1 + d, p.2 + e) ≤ max (f p) (f (p.1 + m * d, p.2 + m * e))

variable {l₁ l₂ l₁' l₂' : List α} {p p' : ℕ × ℕ} {f : ℕ × ℕ → K} {d D M : K} {a v : α}

/-! ## One step -/

theorem countP_le_eq_zero {l : List α} (h : ∀ b ∈ l, v < b) : l.countP (· ≤ v) = 0 :=
  List.countP_eq_zero.mpr fun b hb => by simpa using h b hb

theorem countP_lt_eq_zero {l : List α} (h : ∀ b ∈ l, v ≤ b) : l.countP (· < v) = 0 :=
  List.countP_eq_zero.mpr fun b hb => by simpa using h b hb

theorem count_eq_zero {l : List α} (h : ∀ b ∈ l, v < b) : l.count v = 0 :=
  List.count_eq_zero.mpr fun hmem => lt_irrefl v (h v hmem)

/-- Below all elements a walk has not started. -/
theorem upTo_of_lt (h₁ : ∀ b ∈ l₁, v < b) (h₂ : ∀ b ∈ l₂, v < b) : upTo l₁ l₂ p v = p := by
  rw [upTo, countP_le_eq_zero h₁, countP_le_eq_zero h₂]
  rfl

theorem paired_of_lt (h₁ : ∀ b ∈ l₁, v ≤ b) (h₂ : ∀ b ∈ l₂, v ≤ b)
    (h : l₁.count v = 0 ∨ l₂.count v = 0) : paired l₁ l₂ p v = p := by
  have hmin : min (l₁.count v) (l₂.count v) = 0 := by omega
  rw [paired, countP_lt_eq_zero h₁, countP_lt_eq_zero h₂, hmin]
  rfl

/-- A point stays where it is, or it is the one at which the walk is. -/
theorem Step.upTo_eq (h : Step l₁ l₂ p l₁' l₂' p') (h₁ : l₁.Pairwise (· ≤ ·))
    (h₂ : l₂.Pairwise (· ≤ ·)) (v : α) :
    upTo l₁ l₂ p v = upTo l₁' l₂' p' v ∨ upTo l₁ l₂ p v = p ∧ upTo l₁' l₂' p' v = p' := by
  cases h with
  | both a =>
      obtain ⟨hle₁, -⟩ := List.pairwise_cons.mp h₁
      obtain ⟨hle₂, -⟩ := List.pairwise_cons.mp h₂
      rcases lt_or_ge v a with hv | hv
      · right
        refine ⟨upTo_of_lt ?_ ?_, upTo_of_lt (fun b hb => hv.trans_le (hle₁ b hb))
          fun b hb => hv.trans_le (hle₂ b hb)⟩
        · exact List.forall_mem_cons.mpr ⟨hv, fun b hb => hv.trans_le (hle₁ b hb)⟩
        · exact List.forall_mem_cons.mpr ⟨hv, fun b hb => hv.trans_le (hle₂ b hb)⟩
      · left
        rw [upTo, upTo, List.countP_cons_of_pos (by simpa using hv),
          List.countP_cons_of_pos (by simpa using hv)]
        simp only [Prod.mk.injEq]
        omega
  | first a _ _ _ hlt =>
      obtain ⟨hle₁, -⟩ := List.pairwise_cons.mp h₁
      rcases lt_or_ge v a with hv | hv
      · right
        refine ⟨upTo_of_lt ?_ fun b hb => hv.trans (hlt b hb),
          upTo_of_lt (fun b hb => hv.trans_le (hle₁ b hb)) fun b hb => hv.trans (hlt b hb)⟩
        exact List.forall_mem_cons.mpr ⟨hv, fun b hb => hv.trans_le (hle₁ b hb)⟩
      · left
        rw [upTo, upTo, List.countP_cons_of_pos (by simpa using hv)]
        simp only [Prod.mk.injEq, and_true]
        omega
  | second b _ _ _ hlt =>
      obtain ⟨hle₂, -⟩ := List.pairwise_cons.mp h₂
      rcases lt_or_ge v b with hv | hv
      · right
        refine ⟨upTo_of_lt (fun a ha => hv.trans (hlt a ha)) ?_,
          upTo_of_lt (fun a ha => hv.trans (hlt a ha)) fun a ha => hv.trans_le (hle₂ a ha)⟩
        exact List.forall_mem_cons.mpr ⟨hv, fun a ha => hv.trans_le (hle₂ a ha)⟩
      · left
        rw [upTo, upTo, List.countP_cons_of_pos (a := b) (by simpa using hv)]
        simp only [Prod.mk.injEq, true_and]
        omega

theorem Step.paired_eq (h : Step l₁ l₂ p l₁' l₂' p') (h₁ : l₁.Pairwise (· ≤ ·))
    (h₂ : l₂.Pairwise (· ≤ ·)) (v : α) :
    paired l₁ l₂ p v = paired l₁' l₂' p' v ∨ paired l₁ l₂ p v = p ∧ paired l₁' l₂' p' v = p' := by
  cases h with
  | both a =>
      obtain ⟨hle₁, -⟩ := List.pairwise_cons.mp h₁
      obtain ⟨hle₂, -⟩ := List.pairwise_cons.mp h₂
      rcases lt_trichotomy v a with hv | rfl | hv
      · right
        have hlt₁ : ∀ b ∈ l₁', v < b := fun b hb => hv.trans_le (hle₁ b hb)
        have hlt₂ : ∀ b ∈ l₂', v < b := fun b hb => hv.trans_le (hle₂ b hb)
        have hcons : ∀ b ∈ a :: l₁', v < b := List.forall_mem_cons.mpr ⟨hv, hlt₁⟩
        refine ⟨paired_of_lt (fun b hb => (hcons b hb).le) ?_ (Or.inl (count_eq_zero hcons)),
          paired_of_lt (fun b hb => (hlt₁ b hb).le) (fun b hb => (hlt₂ b hb).le)
            (Or.inl (count_eq_zero hlt₁))⟩
        exact List.forall_mem_cons.mpr ⟨hv.le, fun b hb => (hlt₂ b hb).le⟩
      · left
        -- One pair of copies has been passed.
        rw [paired, paired, List.countP_cons_of_neg (by simp), List.countP_cons_of_neg (by simp),
          List.count_cons_self, List.count_cons_self]
        simp only [Prod.mk.injEq]
        omega
      · left
        rw [paired, paired, List.countP_cons_of_pos (by simpa using hv),
          List.countP_cons_of_pos (by simpa using hv), List.count_cons_of_ne hv.ne,
          List.count_cons_of_ne hv.ne]
        simp only [Prod.mk.injEq]
        omega
  | first a _ _ _ hlt =>
      obtain ⟨hle₁, -⟩ := List.pairwise_cons.mp h₁
      rcases le_or_gt v a with hv | hv
      · right
        have hlt₂ : ∀ b ∈ l₂, v < b := fun b hb => hv.trans_lt (hlt b hb)
        have hge₁ : ∀ b ∈ l₁', v ≤ b := fun b hb => hv.trans (hle₁ b hb)
        exact ⟨paired_of_lt (List.forall_mem_cons.mpr ⟨hv, hge₁⟩) (fun b hb => (hlt₂ b hb).le)
            (Or.inr (count_eq_zero hlt₂)),
          paired_of_lt hge₁ (fun b hb => (hlt₂ b hb).le) (Or.inr (count_eq_zero hlt₂))⟩
      · left
        rw [paired, paired, List.countP_cons_of_pos (by simpa using hv),
          List.count_cons_of_ne hv.ne]
        simp only [Prod.mk.injEq, and_true]
        omega
  | second b _ _ _ hlt =>
      obtain ⟨hle₂, -⟩ := List.pairwise_cons.mp h₂
      rcases le_or_gt v b with hv | hv
      · right
        have hlt₁ : ∀ a ∈ l₁, v < a := fun a ha => hv.trans_lt (hlt a ha)
        have hge₂ : ∀ a ∈ l₂', v ≤ a := fun a ha => hv.trans (hle₂ a ha)
        exact ⟨paired_of_lt (fun a ha => (hlt₁ a ha).le) (List.forall_mem_cons.mpr ⟨hv, hge₂⟩)
            (Or.inl (count_eq_zero hlt₁)),
          paired_of_lt (fun a ha => (hlt₁ a ha).le) hge₂ (Or.inl (count_eq_zero hlt₁))⟩
      · left
        rw [paired, paired, List.countP_cons_of_pos (a := b) (by simpa using hv),
          List.count_cons_of_ne hv.ne]
        simp only [Prod.mk.injEq, true_and]
        omega

/-- After a step the function is not greater than before it and at a point ahead. -/
theorem Step.le_max (hf : Straight f) (h : Step l₁ l₂ p l₁' l₂' p') (h₁ : l₁.Pairwise (· ≤ ·))
    (h₂ : l₂.Pairwise (· ≤ ·)) :
    ∃ v, f p' ≤ max (f p) (max (f (upTo l₁ l₂ p v)) (f (paired l₁ l₂ p v))) := by
  cases h with
  | both a =>
      refine ⟨a, (hf p 1 1 (min (l₁'.count a) (l₂'.count a) + 1) (Nat.succ_pos _)).trans ?_⟩
      refine max_le_max_left _ (le_of_eq_of_le (congrArg f ?_) (le_max_right _ _))
      rw [paired, countP_lt_eq_zero (List.forall_mem_cons.mpr ⟨le_rfl, (List.pairwise_cons.mp h₁).1⟩),
        countP_lt_eq_zero (List.forall_mem_cons.mpr ⟨le_rfl, (List.pairwise_cons.mp h₂).1⟩),
        List.count_cons_self, List.count_cons_self]
      simp only [Prod.mk.injEq]
      omega
  | first a _ _ _ hlt =>
      refine ⟨a, (hf p 1 0 (l₁'.countP (· ≤ a) + 1) (Nat.succ_pos _)).trans ?_⟩
      refine max_le_max_left _ (le_of_eq_of_le (congrArg f ?_) (le_max_left _ _))
      rw [upTo, countP_le_eq_zero hlt, List.countP_cons_of_pos (by simp)]
      simp only [Prod.mk.injEq]
      omega
  | second b _ _ _ hlt =>
      refine ⟨b, (hf p 0 1 (l₂'.countP (· ≤ b) + 1) (Nat.succ_pos _)).trans ?_⟩
      refine max_le_max_left _ (le_of_eq_of_le (congrArg f ?_) (le_max_left _ _))
      rw [upTo, countP_le_eq_zero hlt, List.countP_cons_of_pos (a := b) (by simp)]
      simp only [Prod.mk.injEq]
      omega

theorem Step.pairwise (h : Step l₁ l₂ p l₁' l₂' p') (h₁ : l₁.Pairwise (· ≤ ·))
    (h₂ : l₂.Pairwise (· ≤ ·)) : l₁'.Pairwise (· ≤ ·) ∧ l₂'.Pairwise (· ≤ ·) := by
  cases h with
  | both => exact ⟨(List.pairwise_cons.mp h₁).2, (List.pairwise_cons.mp h₂).2⟩
  | first => exact ⟨(List.pairwise_cons.mp h₁).2, h₂⟩
  | second => exact ⟨h₁, (List.pairwise_cons.mp h₂).2⟩

/-! ## A walk -/

theorem Walk.le (h : Walk f l₁ l₂ p d D) : d ≤ D := by
  induction h with
  | stop => exact le_rfl
  | step _ _ ih => exact (le_max_left _ _).trans ih

/-- **A walk comes to all the points.** -/
theorem Walk.points_le (h : Walk f l₁ l₂ p d D) (h₁ : l₁.Pairwise (· ≤ ·))
    (h₂ : l₂.Pairwise (· ≤ ·)) (hp : f p ≤ d) (v : α) :
    f (upTo l₁ l₂ p v) ≤ D ∧ f (paired l₁ l₂ p v) ≤ D := by
  induction h with
  | stop => exact ⟨hp, hp⟩
  | step hstep hwalk ih =>
      obtain ⟨h₁', h₂'⟩ := hstep.pairwise h₁ h₂
      obtain ⟨hupTo, hpaired⟩ := ih h₁' h₂' (le_max_right _ _)
      have hpD := hp.trans ((le_max_left _ _).trans hwalk.le)
      constructor
      · rcases hstep.upTo_eq h₁ h₂ v with heq | ⟨heq, -⟩
        · rwa [heq]
        · rwa [heq]
      · rcases hstep.paired_eq h₁ h₂ v with heq | ⟨heq, -⟩
        · rwa [heq]
        · rwa [heq]

/-- **No other point counts.** -/
theorem Walk.le_of_points (hf : Straight f) (h : Walk f l₁ l₂ p d D) (h₁ : l₁.Pairwise (· ≤ ·))
    (h₂ : l₂.Pairwise (· ≤ ·)) (hd : d ≤ M) (hp : f p ≤ M)
    (hM : ∀ v, f (upTo l₁ l₂ p v) ≤ M ∧ f (paired l₁ l₂ p v) ≤ M) : D ≤ M := by
  induction h with
  | stop => exact hd
  | step hstep _ ih =>
      obtain ⟨h₁', h₂'⟩ := hstep.pairwise h₁ h₂
      obtain ⟨w, hw⟩ := hstep.le_max hf h₁ h₂
      have hp' := hw.trans (max_le hp (max_le (hM w).1 (hM w).2))
      refine ih h₁' h₂' (max_le hd hp') hp' fun v => ⟨?_, ?_⟩
      · rcases hstep.upTo_eq h₁ h₂ v with heq | ⟨-, heq⟩
        · rw [← heq]
          exact (hM v).1
        · rwa [heq]
      · rcases hstep.paired_eq h₁ h₂ v with heq | ⟨-, heq⟩
        · rw [← heq]
          exact (hM v).2
        · rwa [heq]

end Lush.JointWalk
