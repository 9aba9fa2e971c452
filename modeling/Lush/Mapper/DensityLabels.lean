import Lush.Mapper.Dbscan

/-!
# The labels of the density clustering

The scan of `mapper_dbscan` keeps the core points of the clusters apart, and gives every
label to a point near a core point (`Scanned`).  A point that is visited as noise before the
cluster is expanded gets its label only from the seed, so that the labels are a density
clustering exactly when this never matters (`mapperDbscan_clustering_iff`).
-/

namespace Lush.Mapper

open Density

variable {D : Type} [LinearOrder D] [Zero D] {dm : ℕ → D} {nrows : ℕ} {eps : D}
  {minPts : ℕ} {i q x : ℕ}

/-! ## The scan -/

/-- The core point `c` reaches `x`, which is no core point: it is the first core point of its
cluster, or its cluster has a core point before `x`. -/
def Early (dm : ℕ → D) (nrows : ℕ) (eps : D) (minPts c x : ℕ) : Prop :=
  (∃ s, Linked (Near dm eps) (Core dm nrows eps minPts) c s ∧ s < x) ∨
    ∀ s, Linked (Near dm eps) (Core dm nrows eps minPts) c s → c ≤ s

/-- The state of the scan before the point `i`, when there are `k` clusters. -/
structure Scanned (dm : ℕ → D) (nrows : ℕ) (eps : D) (minPts i k : ℕ) (m : Marks) : Prop where
  before : ∀ x < i, m.visited x = true
  fresh : ∀ x, m.visited x = false → m.labels x = -1
  ahead : ∀ x, i ≤ x → m.visited x = true → m.labels x ≠ -1
  range : ∀ x, m.labels x ≠ -1 → 0 ≤ m.labels x ∧ m.labels x < k
  core : ∀ a, Core dm nrows eps minPts a → m.visited a = true → m.labels a ≠ -1
  component : ∀ a b, Core dm nrows eps minPts a → m.visited a = true →
    Linked (Near dm eps) (Core dm nrows eps minPts) a b →
    m.visited b = true ∧ m.labels b = m.labels a
  separate : ∀ a b, Core dm nrows eps minPts a → Core dm nrows eps minPts b →
    m.visited a = true → m.visited b = true → m.labels a = m.labels b →
    Linked (Near dm eps) (Core dm nrows eps minPts) a b
  border : ∀ x, ¬Core dm nrows eps minPts x → m.labels x ≠ -1 →
    ∃ c, Core dm nrows eps minPts c ∧ m.visited c = true ∧ Near dm eps c x ∧
      m.labels c = m.labels x
  reached : ∀ x < nrows, ¬Core dm nrows eps minPts x → (m.labels x ≠ -1 ↔
    ∃ c, Core dm nrows eps minPts c ∧ m.visited c = true ∧ Near dm eps c x ∧
      Early dm nrows eps minPts c x)

theorem scanned_zero : Scanned dm nrows eps minPts 0 0 ⟨fun _ => false, fun _ => -1⟩ where
  before x hx := absurd hx (Nat.not_lt_zero x)
  fresh _ _ := rfl
  ahead _ _ hv := absurd hv Bool.false_ne_true
  range _ h := absurd rfl h
  core _ _ hv := absurd hv Bool.false_ne_true
  component _ _ _ hv := absurd hv Bool.false_ne_true
  separate _ _ _ _ hv := absurd hv Bool.false_ne_true
  border _ _ h := absurd rfl h
  reached _ _ _ := ⟨fun h => absurd rfl h, fun ⟨_, _, hv, _⟩ => absurd hv Bool.false_ne_true⟩

variable {k : ℕ} {m m' : Marks}

/-- A point that was visited is passed over. -/
theorem Scanned.pass (h : Scanned dm nrows eps minPts i k m) (hi : m.visited i = true) :
    Scanned dm nrows eps minPts (i + 1) k m where
  before x hx := by
    rcases Nat.lt_succ_iff_lt_or_eq.mp hx with hlt | rfl
    · exact h.before x hlt
    · exact hi
  fresh := h.fresh
  ahead x hx := h.ahead x (Nat.le_of_succ_le hx)
  range := h.range
  core := h.core
  component := h.component
  separate := h.separate
  border := h.border
  reached := h.reached

/-- A point with too few neighbors is noise for now. -/
theorem Scanned.noise (h : Scanned dm nrows eps minPts i k m)
    (hi : ¬Core dm nrows eps minPts i) :
    Scanned dm nrows eps minPts (i + 1) k
      { m with visited := Function.update m.visited i true } := by
  have hcore : ∀ a, Core dm nrows eps minPts a →
      (Function.update m.visited i true a = true ↔ m.visited a = true) := by
    intro a ha
    have hai : a ≠ i := fun heq => hi (heq ▸ ha)
    rw [Function.update_of_ne hai]
  refine ⟨fun x hx => ?_, fun x hx => ?_, fun x hx hv => ?_, h.range, fun a ha hv => ?_,
    fun a b ha hv hab => ?_, fun a b ha hb hva hvb => ?_, fun x hx hl => ?_, fun x hx hxc => ?_⟩
  · by_cases hxi : x = i
    · simp [hxi]
    · simp [hxi, h.before x (by omega)]
  · have hxi : x ≠ i := by
      rintro rfl
      simp at hx
    exact h.fresh x (by simpa [hxi] using hx)
  · have hxi : x ≠ i := by omega
    exact h.ahead x (by omega) (by simpa [hxi] using hv)
  · exact h.core a ha ((hcore a ha).mp hv)
  · obtain ⟨hvb, hlabel⟩ := h.component a b ha ((hcore a ha).mp hv) hab
    exact ⟨(hcore b (hab.core_right ha)).mpr hvb, hlabel⟩
  · exact h.separate a b ha hb ((hcore a ha).mp hva) ((hcore b hb).mp hvb)
  · obtain ⟨c, hc, hv, hrest⟩ := h.border x hx hl
    exact ⟨c, hc, (hcore c hc).mpr hv, hrest⟩
  · rw [h.reached x hx hxc]
    constructor
    · rintro ⟨c, hc, hv, hrest⟩
      exact ⟨c, hc, (hcore c hc).mpr hv, hrest⟩
    · rintro ⟨c, hc, hv, hrest⟩
      exact ⟨c, hc, (hcore c hc).mp hv, hrest⟩

/-- No core point linked to an unvisited core point is visited. -/
theorem Scanned.unvisited (h : Scanned dm nrows eps minPts i k m)
    (hcore : Core dm nrows eps minPts q) (hv : m.visited q = false)
    (hlink : Linked (Near dm eps) (Core dm nrows eps minPts) q x) : m.visited x = false := by
  by_contra hx
  have hback := Linked.symm (fun _ _ => Near.symm _ _) hlink hcore
  have hq := (h.component x q (hlink.core_right hcore) (Bool.not_eq_false _ ▸ hx) hback).1
  exact Bool.false_ne_true (hv.symm.trans hq)

/-- A core point is taken when it is linked to the seed. -/
theorem Scanned.taken_iff (h : Scanned dm nrows eps minPts i k m) (hv : m.visited i = false)
    (hi : Core dm nrows eps minPts i) {a : ℕ} (ha : Core dm nrows eps minPts a) :
    Taken dm nrows eps minPts i m.visited a ↔
      Linked (Near dm eps) (Core dm nrows eps minPts) i a := by
  refine ⟨fun htaken => htaken.linked ha, fun hlink => ?_⟩
  have hunvisited := h.unvisited hi hv hlink
  cases hlink with
  | refl => exact .inl rfl
  | @tail q _ hq hstep => exact .inr ⟨ha.1, .inr ⟨hunvisited, q, hq, hstep.1⟩⟩

/-- The marks after the expansion of the seed `i`. -/
structure Expanded (dm : ℕ → D) (nrows : ℕ) (eps : D) (minPts i k : ℕ) (m m' : Marks) :
    Prop where
  visited : ∀ x, m'.visited x = true ↔
    m.visited x = true ∨ Taken dm nrows eps minPts i m.visited x
  taken : ∀ x, Taken dm nrows eps minPts i m.visited x → m.labels x = -1 →
    m'.labels x = (k : ℤ)
  kept : ∀ x, ¬(Taken dm nrows eps minPts i m.visited x ∧ m.labels x = -1) →
    m'.labels x = m.labels x

/-- An expansion gives the core points linked to the seed the new cluster, and leaves the
other core points as they are. -/
theorem Scanned.core_labels (h : Scanned dm nrows eps minPts i k m) (hv : m.visited i = false)
    (hi : Core dm nrows eps minPts i) (he : Expanded dm nrows eps minPts i k m m') {a : ℕ}
    (ha : Core dm nrows eps minPts a) :
    (m'.visited a = true ∧ Linked (Near dm eps) (Core dm nrows eps minPts) i a ∧
        m'.labels a = k) ∨
      ((m'.visited a = true ↔ m.visited a = true) ∧
        ¬Linked (Near dm eps) (Core dm nrows eps minPts) i a ∧ m'.labels a = m.labels a) := by
  have htaken := h.taken_iff hv hi ha
  by_cases hlink : Linked (Near dm eps) (Core dm nrows eps minPts) i a
  · refine .inl ⟨(he.visited a).mpr (.inr (htaken.mpr hlink)), hlink, ?_⟩
    exact he.taken a (htaken.mpr hlink) (h.fresh a (h.unvisited hi hv hlink))
  · refine .inr ⟨?_, hlink, he.kept a fun hc => hlink (htaken.mp hc.1)⟩
    rw [he.visited a, htaken]
    exact or_iff_left hlink

/-- A core point with enough neighbors that no cluster has reached gets a cluster. -/
theorem Scanned.cluster (h : Scanned dm nrows eps minPts i k m) (hv : m.visited i = false)
    (hi : Core dm nrows eps minPts i) (he : Expanded dm nrows eps minPts i k m m') :
    Scanned dm nrows eps minPts (i + 1) (k + 1) m' := by
  have hsymm : ∀ a b, Near dm eps a b → Near dm eps b a := fun _ _ => Near.symm _ _
  -- a point that had a label keeps it
  have hkeep : ∀ x, m.labels x ≠ -1 → m'.labels x = m.labels x :=
    fun x hx => he.kept x fun hc => hx hc.2
  have hvisited : ∀ x, m.visited x = true → m'.visited x = true :=
    fun x hx => (he.visited x).mpr (.inl hx)
  -- the seed is the first of the core points linked to it
  have hfirst : ∀ s, Linked (Near dm eps) (Core dm nrows eps minPts) i s → i ≤ s := by
    intro s hs
    by_contra hlt
    have hs0 := h.unvisited hi hv hs
    exact Bool.false_ne_true (hs0.symm.trans (h.before s (by omega)))
  refine ⟨fun x hx => ?_, fun x hx => ?_, fun x hx hxv => ?_, fun x hx => ?_, fun a ha hav => ?_,
    fun a b ha hav hab => ?_, fun a b ha hb hav hbv heq => ?_, fun x hx hl => ?_,
    fun x hx hxc => ?_⟩
  · rcases Nat.lt_succ_iff_lt_or_eq.mp hx with hlt | rfl
    · exact hvisited x (h.before x hlt)
    · exact (he.visited x).mpr (.inr (.inl rfl))
  · have hnot := (he.visited x).not.mp (by simp [hx])
    rw [he.kept x fun hc => hnot (.inr hc.1)]
    exact h.fresh x (by simpa using fun hxv => hnot (.inl hxv))
  · by_cases hl : m.labels x = -1
    · rcases (he.visited x).mp hxv with hxv | htaken
      · exact absurd hl (h.ahead x (by omega) hxv)
      · rw [he.taken x htaken hl]
        omega
    · rwa [hkeep x hl]
  · by_cases hl : m.labels x = -1
    · by_cases htaken : Taken dm nrows eps minPts i m.visited x
      · rw [he.taken x htaken hl]
        omega
      · rw [he.kept x fun hc => htaken hc.1] at hx
        exact absurd hl hx
    · rw [hkeep x hl]
      have := h.range x hl
      push_cast
      omega
  · rcases h.core_labels hv hi he ha with ⟨-, -, hlabel⟩ | ⟨hiff, -, hlabel⟩
    · rw [hlabel]
      omega
    · rw [hlabel]
      exact h.core a ha (hiff.mp hav)
  · have hb := hab.core_right ha
    rcases h.core_labels hv hi he ha with ⟨-, hlink, hlabel⟩ | ⟨hiff, hlink, hlabel⟩ <;>
      rcases h.core_labels hv hi he hb with ⟨hbv, hlinkb, hlabelb⟩ | ⟨hiffb, hlinkb, hlabelb⟩
    · exact ⟨hbv, hlabelb.trans hlabel.symm⟩
    · exact absurd (hlink.trans hab) hlinkb
    · exact absurd (hlinkb.trans (hab.symm hsymm ha)) hlink
    · obtain ⟨hbv, heq⟩ := h.component a b ha (hiff.mp hav) hab
      exact ⟨hiffb.mpr hbv, by rw [hlabelb, hlabel, heq]⟩
  · rcases h.core_labels hv hi he ha with ⟨-, hlink, hlabel⟩ | ⟨hiff, hlink, hlabel⟩ <;>
      rcases h.core_labels hv hi he hb with ⟨-, hlinkb, hlabelb⟩ | ⟨hiffb, hlinkb, hlabelb⟩
    · exact (hlink.symm hsymm hi).trans hlinkb
    · have := h.range b (h.core b hb (hiffb.mp hbv))
      omega
    · have := h.range a (h.core a ha (hiff.mp hav))
      omega
    · exact h.separate a b ha hb (hiff.mp hav) (hiffb.mp hbv) (by omega)
  · -- the label of a point that is no core point comes from a core point near it
    by_cases hold : m.labels x = -1
    · by_cases htaken : Taken dm nrows eps minPts i m.visited x
      · have hnew := he.taken x htaken hold
        have hseed : ∀ c, Linked (Near dm eps) (Core dm nrows eps minPts) i c → Near dm eps c x →
            ∃ c, Core dm nrows eps minPts c ∧ m'.visited c = true ∧ Near dm eps c x ∧
              m'.labels c = m'.labels x := by
          intro c hc hnear
          have hcc := hc.core_right hi
          rcases h.core_labels hv hi he hcc with ⟨hcv, -, hlabel⟩ | ⟨-, hnot, -⟩
          · exact ⟨c, hcc, hcv, hnear, by rw [hlabel, hnew]⟩
          · exact absurd hc hnot
        rcases htaken with rfl | ⟨-, hnear | ⟨-, c, hc, hnear⟩⟩
        · exact absurd hi hx
        · exact hseed i (.refl i) hnear
        · exact hseed c hc hnear
      · rw [he.kept x fun hc => htaken hc.1] at hl
        exact absurd hold hl
    · obtain ⟨c, hc, hcv, hnear, heq⟩ := h.border x hx hold
      have hlabel := hkeep c (h.core c hc hcv)
      exact ⟨c, hc, hvisited c hcv, hnear, by rw [hlabel, hkeep x hold, heq]⟩
  · constructor
    · intro hl
      by_cases hold : m.labels x = -1
      · by_cases htaken : Taken dm nrows eps minPts i m.visited x
        · rcases htaken with rfl | ⟨-, hnear | ⟨hxv, c, hc, hnear⟩⟩
          · exact absurd hi hxc
          · exact ⟨i, hi, (he.visited i).mpr (.inr (.inl rfl)), hnear, .inr hfirst⟩
          · have hcc := hc.core_right hi
            have hix : i < x := by
              rcases Nat.lt_trichotomy i x with hlt | rfl | hlt
              · exact hlt
              · exact absurd hi hxc
              · exact absurd (h.before x hlt) (by simp [hxv])
            refine ⟨c, hcc, ?_, hnear, .inl ⟨i, hc.symm hsymm hi, hix⟩⟩
            exact (he.visited c).mpr (.inr ((h.taken_iff hv hi hcc).mpr hc))
        · rw [he.kept x fun hc => htaken hc.1] at hl
          exact absurd hold hl
      · obtain ⟨c, hc, hcv, hrest⟩ := (h.reached x hx hxc).mp hold
        exact ⟨c, hc, hvisited c hcv, hrest⟩
    · rintro ⟨c, hc, hcv, hnear, hearly⟩
      by_cases hold : m.labels x = -1
      · have htaken : Taken dm nrows eps minPts i m.visited x := by
          rcases h.core_labels hv hi he hc with ⟨-, hlink, -⟩ | ⟨hiff, -, -⟩
          · refine .inr ⟨hx, ?_⟩
            rcases hearly with ⟨s, hs, hsx⟩ | hmin
            · -- the point comes after the seed, so that it was not visited
              have his := hfirst s (hlink.trans hs)
              refine .inr ⟨?_, c, hlink, hnear⟩
              by_contra hxv
              exact h.ahead x (by omega) (Bool.not_eq_false _ ▸ hxv) hold
            · have hci : c = i :=
                Nat.le_antisymm (hmin i (hlink.symm hsymm hi)) (hfirst c hlink)
              exact .inl (hci ▸ hnear)
          · have := (h.reached x hx hxc).mpr ⟨c, hc, hiff.mp hcv, hnear, hearly⟩
            exact absurd hold this
        rw [he.taken x htaken hold]
        omega
      · rwa [hkeep x hold]

theorem scanPoint_ok (h : Scanned dm nrows eps minPts i k m) (hi : i < nrows) :
    ∃ k' m', scanPoint dm nrows eps minPts i k m = some (k', m') ∧
      Scanned dm nrows eps minPts (i + 1) k' m' := by
  unfold scanPoint
  cases hv : m.visited i with
  | true => exact ⟨k, m, rfl, h.pass hv⟩
  | false =>
      simp only [Bool.false_eq_true, if_false]
      split_ifs with hpts
      · exact ⟨k, _, rfl, h.noise fun hc => absurd hc.2 (not_le_of_gt hpts)⟩
      · have hcore : Core dm nrows eps minPts i := ⟨hi, not_lt.mp hpts⟩
        obtain ⟨m', hrun, hvisited, hlabels⟩ :=
          expand_ok hi h.fresh (fun x hx => h.unvisited hcore hv hx) hcore
        refine ⟨k + 1, m', ?_, h.cluster hv hcore
          ⟨hvisited, fun x => (hlabels x).1, fun x => (hlabels x).2⟩⟩
        exact Option.map_eq_some_iff.mpr ⟨m', hrun, rfl⟩

theorem scan_ok (hi : i ≤ nrows) :
    ∃ k m, scan dm nrows eps minPts i = some (k, m) ∧ Scanned dm nrows eps minPts i k m := by
  induction i with
  | zero => exact ⟨0, _, rfl, scanned_zero⟩
  | succ i ih =>
      obtain ⟨k, m, hscan, h⟩ := ih (Nat.le_of_succ_le hi)
      obtain ⟨k', m', hpoint, h'⟩ := scanPoint_ok h hi
      refine ⟨k', m', ?_, h'⟩
      rw [scan, hscan]
      exact hpoint

/-- The labels are a density clustering when every point near a core point is reached. -/
theorem Scanned.clustering_iff (heps : 0 ≤ eps) (h : Scanned dm nrows eps minPts nrows k m) :
    Clustering (· < nrows) (Near dm eps) (Core dm nrows eps minPts) k m.labels ↔
      ∀ x < nrows, ¬Core dm nrows eps minPts x →
        (∃ c, Core dm nrows eps minPts c ∧ Near dm eps c x) →
        ∃ c, Core dm nrows eps minPts c ∧ Near dm eps c x ∧ Early dm nrows eps minPts c x := by
  have hv : ∀ a, Core dm nrows eps minPts a → m.visited a = true := fun a ha => h.before a ha.1
  have hreached : ∀ x < nrows, ¬Core dm nrows eps minPts x → (m.labels x ≠ -1 ↔
      ∃ c, Core dm nrows eps minPts c ∧ Near dm eps c x ∧ Early dm nrows eps minPts c x) := by
    intro x hx hxc
    rw [h.reached x hx hxc]
    refine exists_congr fun c => and_congr_right fun hc => and_iff_right (hv c hc)
  constructor
  · intro hclustering x hx hxc hnear
    exact (hreached x hx hxc).mp fun hl => (hclustering.noise x hx).mp hl hnear
  · intro hall
    refine ⟨fun x _ => ?_, fun a b ha hb => ⟨?_, ?_⟩, fun x hx => ⟨fun hl hc => ?_, ?_⟩,
      fun x _ hxc hl => ?_⟩
    · by_cases hl : m.labels x = -1
      · rw [hl]
        omega
      · have := h.range x hl
        omega
    · exact h.separate a b ha hb (hv a ha) (hv b hb)
    · exact fun hab => ((h.component a b ha (hv a ha) hab).2).symm
    · by_cases hxc : Core dm nrows eps minPts x
      · exact h.core x hxc (hv x hxc) hl
      · exact (hreached x hx hxc).mpr (hall x hx hxc hc) hl
    · intro hnone
      have hxc : ¬Core dm nrows eps minPts x := fun hc => hnone ⟨x, hc, near_self heps x⟩
      by_contra hl
      obtain ⟨c, hc, hnear, -⟩ := (hreached x hx hxc).mp hl
      exact hnone ⟨c, hc, hnear⟩
    · obtain ⟨c, hc, -, hnear, heq⟩ := h.border x hxc hl
      exact ⟨c, hc, hnear, heq⟩

/-- **`mapper_dbscan` computes a density clustering exactly when no point that is visited as
noise is near a cluster that comes later.**  A point near a core point is reached when it
comes after a core point of that cluster, or is near its first one. -/
theorem mapperDbscan_clustering_iff (heps : 0 ≤ eps) :
    (∃ k labels, mapperDbscan dm nrows eps minPts = some (k, labels) ∧
        Clustering (· < nrows) (Near dm eps) (Core dm nrows eps minPts) k labels) ↔
      ∀ x < nrows, ¬Core dm nrows eps minPts x →
        (∃ c, Core dm nrows eps minPts c ∧ Near dm eps c x) →
        ∃ c, Core dm nrows eps minPts c ∧ Near dm eps c x ∧ Early dm nrows eps minPts c x := by
  have hscanned : ∃ k m, scan dm nrows eps minPts nrows = some (k, m) ∧
      Scanned dm nrows eps minPts nrows k m := scan_ok (le_refl nrows)
  obtain ⟨k, m, hscan, h⟩ := hscanned
  have hrun : mapperDbscan dm nrows eps minPts = some (k, m.labels) := by
    rw [mapperDbscan, hscan]
    rfl
  rw [← h.clustering_iff heps, hrun]
  constructor
  · rintro ⟨k', labels, heq, hclustering⟩
    obtain ⟨rfl, rfl⟩ := Prod.mk.inj (Option.some.inj heq)
    exact hclustering
  · intro hclustering
    exact ⟨k, m.labels, rfl, hclustering⟩

/-- The distances of four points on a line, at the places 3, 0, 1 and 2. -/
def lineDistances (k : ℕ) : ℕ := [3, 2, 1, 1, 2, 1].getD k 0

/-- The first point is visited before the cluster whose last core point it is near, and is
not near the first one. -/
theorem mapperDbscan_line_not_clustering :
    ¬∃ k labels, mapperDbscan lineDistances 4 1 3 = some (k, labels) ∧
      Clustering (· < 4) (Near lineDistances 1) (Core lineDistances 4 1 3) k labels := by
  rintro ⟨k, labels, hrun, hclustering⟩
  have hlabel : (mapperDbscan lineDistances 4 1 3).map (fun r => r.2 0) = some (-1) := by decide
  rw [hrun] at hlabel
  have hcore : Core lineDistances 4 1 3 3 := ⟨by decide, by decide⟩
  have hnear : Near lineDistances 1 3 0 := by
    unfold Near
    decide
  exact (hclustering.noise 0 (by decide)).mp (Option.some.inj hlabel) ⟨3, hcore, hnear⟩

theorem mapperDbscan_line_clustering_iff :
    (∃ k labels, mapperDbscan lineDistances 4 1 2 = some (k, labels) ∧
        Clustering (· < 4) (Near lineDistances 1) (Core lineDistances 4 1 2) k labels) ↔
      ∀ x < 4, ¬Core lineDistances 4 1 2 x →
        (∃ c, Core lineDistances 4 1 2 c ∧ Near lineDistances 1 c x) →
        ∃ c, Core lineDistances 4 1 2 c ∧ Near lineDistances 1 c x ∧
          Early lineDistances 4 1 2 c x :=
  mapperDbscan_clustering_iff (by decide)

end Lush.Mapper
