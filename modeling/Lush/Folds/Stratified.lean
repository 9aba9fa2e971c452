import Lush.Ints
import Lush.Library.KeyedLists
import Lush.Folds.Random

/-!
# Stratified splits

The stratified functions collect the labels from a sorted copy, in which they compare each
one with the one before it.  The first label is compared with `-999999999`, so that the class
with this label is lost when it is the smallest one (`mem_classes`).  All other classes are
shuffled, and dealt to the parts of a split or to the folds.  When a class is lost the result
is a partition of the other indices, unless a part is empty, which is an error
(`splits_partition_iff`).
-/

namespace Lush.Splits

open Heapsort Datatable Grouping Lush.Conformal

/-! ## The code -/

/-- `idx-i1sortup`. -/
def idxI1sortup (n : ℕ) (m : ℕ → ℤ) : ℕ → ℤ := if n > 1 then heapsort id n m else m

/-- What `prev` is before the first label. -/
def noLabel : ℤ := -999999999

/-- A round of the loop over the sorted labels: `classes`, and `prev`. -/
def collectRound (state : List ℤ × ℤ) (v : ℤ) : List ℤ × ℤ :=
  if v ≠ state.2 then ((nconc1 state.1 v).2, v) else state

/-- `classes`. -/
def classes (n : ℕ) (labels : ℕ → ℤ) : List ℤ :=
  let sortedLabels := idxI1sortup n labels
  (((List.range n).map sortedLabels).foldl collectRound ([], noLabel)).1

/-- `class-indices`. -/
def classIndices (n : ℕ) (labels : ℕ → ℤ) : ℤ → List ℕ :=
  let table := (classes n labels).foldl (fun table c => Function.update table c []) fun _ => []
  (List.range n).foldl
    (fun table i => Function.update table (labels i) (nconc1 (table (labels i)) i).2) table

/-- An element is written at the next position of an index vector. -/
def put (state : List ℕ × ℕ) (v : ℕ) : Except Fault (List ℕ × ℕ) :=
  if state.2 < state.1.length then .ok (state.1.set state.2 v, state.2 + 1)
  else .error (.error "subscript out of range")

/-- A list is written from the next position on. -/
def putAll (state : List ℕ × ℕ) (l : List ℕ) : Except Fault (List ℕ × ℕ) := l.foldlM put state

section

variable {K : Type} [Field K] [LinearOrder K] [FloorRing K]

/-- How many of `nc` elements of a class are for the test. -/
def classNtest (nc : ℕ) (testFraction : K) : ℤ :=
  max (if nc ≥ 2 then 1 else 0)
    (min ((nc : ℤ) - 1) (truncate (1 / (2 : ℕ) + nc * testFraction)))

/-- An element of a class goes to `train-list` or to `test-list`. -/
def splitRound (idxs : List ℕ) (perm : ℕ → ℕ) (ntest : ℤ) (state : List ℕ × List ℕ) (pi : ℕ) :
    List ℕ × List ℕ :=
  let origIdx := idxs.getD (perm pi) 0
  if (pi : ℤ) < ntest then (state.1, (nconc1 state.2 origIdx).2)
  else ((nconc1 state.1 origIdx).2, state.2)

/-- A class is split. -/
def splitClass (draws : ℤ → Draws) (table : ℤ → List ℕ) (testFraction : K)
    (state : List ℕ × List ℕ) (c : ℤ) : Except Fault (List ℕ × List ℕ) := do
  let idxs := table c
  let nc := idxs.length
  let perm ← shuffleIdx (draws c) nc
  let ntest := classNtest nc testFraction
  .ok ((List.range nc).foldl (splitRound idxs perm ntest) state)

/-- `stratified-train-test-split`.  Each class is shuffled once, so that the draws can be
given by the class. -/
def stratifiedTrainTestSplit (draws : ℤ → Draws) (n : ℕ) (labels : ℕ → ℤ) (testFraction : K) :
    Except Fault Split := do
  let (trainList, testList) ←
    (classes n labels).foldlM (splitClass draws (classIndices n labels) testFraction) ([], [])
  let trainIdx ← intMatrix trainList.length
  let testIdx ← intMatrix testList.length
  let (trainIdx, _) ← putAll (trainIdx, 0) trainList
  let (testIdx, _) ← putAll (testIdx, 0) testList
  .ok ⟨trainIdx, testIdx⟩

end

/-- An element of a class goes to its fold. -/
def dealRound (k : ℕ) (idxs : List ℕ) (perm : ℕ → ℕ) (foldLists : List (List ℕ)) (pi : ℕ) :
    List (List ℕ) :=
  let foldNum := pi % k
  let origIdx := idxs.getD (perm pi) 0
  foldLists.set foldNum (nconc1 (foldLists.getD foldNum []) origIdx).2

/-- A class is dealt to the folds. -/
def dealClass (draws : ℤ → Draws) (table : ℤ → List ℕ) (k : ℕ) (foldLists : List (List ℕ))
    (c : ℤ) : Except Fault (List (List ℕ)) := do
  let idxs := table c
  let nc := idxs.length
  let perm ← shuffleIdx (draws c) nc
  .ok ((List.range nc).foldl (dealRound k idxs perm) foldLists)

/-- A fold is made of the lists. -/
def makeFold (n k : ℕ) (foldLists : List (List ℕ)) (result : List Split) (fi : ℕ) :
    Except Fault (List Split) := do
  let testList := foldLists.getD fi []
  let ntest := testList.length
  let testIdx ← intMatrix ntest
  let trainIdx ← intMatrix (n - ntest)
  let (testIdx, _) ← putAll (testIdx, 0) testList
  let (trainIdx, _) ← (List.range k).foldlM (fun state fj =>
    if fj ≠ fi then putAll state (foldLists.getD fj []) else .ok state) (trainIdx, 0)
  .ok (nconc1 result ⟨trainIdx, testIdx⟩).2

/-- `stratified-kfold-indices`. -/
def stratifiedKfoldIndices (draws : ℤ → Draws) (n : ℕ) (labels : ℕ → ℤ) (k : ℕ) :
    Except Fault (List Split) :=
  if k < 2 then .error (.error "k must be at least 2")
  else do
    let foldLists := (List.range k).foldl (fun foldLists _ => (nconc1 foldLists []).2) []
    let foldLists ←
      (classes n labels).foldlM (dealClass draws (classIndices n labels) k) foldLists
    (List.range k).foldlM (makeFold n k foldLists) []

/-! ## Classes -/

variable {n k : ℕ} {labels : ℕ → ℤ} {draws : ℤ → Draws} {c : ℤ}

/-- The labels in a sorted list, once each, but for the one that came before. -/
theorem collect_spec {l : List ℤ} (hsorted : l.Pairwise (· ≤ ·)) (prev : ℤ)
    (hprev : ∀ v ∈ l, prev ≤ v) (acc : List ℤ) :
    ∃ new : List ℤ, (l.foldl collectRound (acc, prev)).1 = acc ++ new ∧ new.Nodup ∧
      ∀ v, v ∈ new ↔ v ∈ l ∧ v ≠ prev := by
  induction l generalizing prev acc with
  | nil => exact ⟨[], by simp⟩
  | cons a l ih =>
      obtain ⟨hle, hl⟩ := List.pairwise_cons.mp hsorted
      rw [List.foldl_cons, collectRound]
      by_cases ha : a = prev
      · subst ha
        rw [if_neg (by simp)]
        obtain ⟨new, heq, hnodup, hmem⟩ := ih hl a hle acc
        refine ⟨new, heq, hnodup, fun v => ?_⟩
        rw [hmem, List.mem_cons]
        tauto
      · rw [if_pos ha]
        obtain ⟨new, heq, hnodup, hmem⟩ := ih hl a hle (acc ++ [a])
        refine ⟨a :: new, ?_, List.nodup_cons.mpr ⟨by simp [hmem], hnodup⟩, fun v => ?_⟩
        · rw [nconc1_snd, heq, List.append_assoc]
          rfl
        · rw [List.mem_cons, List.mem_cons, hmem]
          have hlt : prev < a := (hprev a List.mem_cons_self).lt_of_ne (Ne.symm ha)
          constructor
          · rintro (rfl | ⟨hv, -⟩)
            · exact ⟨Or.inl rfl, ha⟩
            · exact ⟨Or.inr hv, (hlt.trans_le (hle v hv)).ne'⟩
          · rintro ⟨rfl | hv, -⟩
            · exact Or.inl rfl
            · by_cases hva : v = a
              · exact Or.inl hva
              · exact Or.inr ⟨hv, hva⟩

theorem idxI1sortup_sorted (n : ℕ) (m : ℕ → ℤ) :
    ((List.range n).map (idxI1sortup n m)).Pairwise (· ≤ ·) ∧
      ((List.range n).map (idxI1sortup n m)).Perm ((List.range n).map m) := by
  rw [idxI1sortup]
  split_ifs with hn
  · obtain ⟨hsorted, hperm⟩ := heapsort_sorted id n m
    refine ⟨?_, hperm.perm⟩
    rw [List.pairwise_map]
    refine List.Pairwise.imp_of_mem ?_ List.pairwise_lt_range
    exact fun {a b} _ hb hab => hsorted a b hab.le (List.mem_range.mp hb)
  · refine ⟨?_, .refl _⟩
    interval_cases n <;> simp

/-- The class of `noLabel` is lost when no label is smaller. -/
def Lost (n : ℕ) (labels : ℕ → ℤ) (c : ℤ) : Prop := c = noLabel ∧ ∀ i < n, noLabel ≤ labels i

theorem classes_spec (n : ℕ) (labels : ℕ → ℤ) :
    (classes n labels).Nodup ∧
      ∀ c, c ∈ classes n labels ↔ (∃ i < n, labels i = c) ∧ ¬Lost n labels c := by
  obtain ⟨hsorted, hperm⟩ := idxI1sortup_sorted n labels
  have hmem : ∀ v, v ∈ (List.range n).map (idxI1sortup n labels) ↔ ∃ i < n, labels i = v := by
    intro v
    rw [hperm.mem_iff]
    simp
  rw [classes]
  generalize (List.range n).map (idxI1sortup n labels) = l at hsorted hmem ⊢
  cases l with
  | nil =>
      refine ⟨List.nodup_nil, fun c => ?_⟩
      rw [← hmem]
      simp
  | cons a l =>
      obtain ⟨hle, hl⟩ := List.pairwise_cons.mp hsorted
      by_cases ha : a = noLabel
      · -- The first label is not collected, and it is the smallest one.
        have hfirst : ∀ v ∈ a :: l, noLabel ≤ v :=
          List.forall_mem_cons.mpr ⟨ha.ge, fun v hv => ha ▸ hle v hv⟩
        obtain ⟨new, heq, hnodup, hnew⟩ := collect_spec hsorted noLabel hfirst []
        simp only [heq, List.nil_append]
        refine ⟨hnodup, fun c => ?_⟩
        rw [hnew, ← hmem, Lost]
        have hmin : ∀ i < n, noLabel ≤ labels i := fun i hi => hfirst _ ((hmem _).mpr ⟨i, hi, rfl⟩)
        tauto
      · obtain ⟨new, heq, hnodup, hnew⟩ := collect_spec hl a hle [a]
        have hstart : collectRound ([], noLabel) a = ([a], a) := if_pos ha
        rw [List.foldl_cons, hstart]
        simp only [heq]
        refine ⟨List.nodup_cons.mpr ⟨by simp [hnew], hnodup⟩, fun c => ?_⟩
        rw [← hmem]
        constructor
        · intro hc
          have hcl : c ∈ a :: l := by
            rcases List.mem_append.mp hc with hc | hc
            · obtain rfl := List.mem_singleton.mp hc
              exact List.mem_cons_self
            · exact List.mem_cons_of_mem _ ((hnew c).mp hc).1
          refine ⟨hcl, ?_⟩
          rintro ⟨rfl, hmin⟩
          obtain ⟨i, hi, heq⟩ := (hmem a).mp List.mem_cons_self
          have hge : noLabel ≤ a := heq ▸ hmin i hi
          rcases List.mem_cons.mp hcl with h | h
          · exact ha h.symm
          · exact ha (le_antisymm (hle _ h) hge)
        · rintro ⟨hc, -⟩
          by_cases hca : c = a
          · exact List.mem_append_left _ (List.mem_singleton.mpr hca)
          · refine List.mem_append_right _ ((hnew c).mpr ⟨?_, hca⟩)
            exact (List.mem_cons.mp hc).resolve_left hca

theorem mem_classes : c ∈ classes n labels ↔ (∃ i < n, labels i = c) ∧ ¬Lost n labels c :=
  (classes_spec n labels).2 c

/-- The table has the indices of each class. -/
theorem classIndices_eq (n : ℕ) (labels : ℕ → ℤ) (c : ℤ) :
    classIndices n labels c = (List.range n).filter (labels · = c) := by
  have hempty : ∀ (cs : List ℤ) (table : ℤ → List ℕ), (∀ c, table c = []) →
      ∀ c, cs.foldl (fun table c => Function.update table c []) table c = [] := by
    intro cs
    induction cs with
    | nil => exact fun table h => h
    | cons a cs ih =>
        intro table h
        refine ih _ fun c => ?_
        show Function.update table a [] c = []
        rw [Function.update_apply]
        split_ifs
        · rfl
        · exact h c
  have hloop : ∀ (l : List ℕ) (table : ℤ → List ℕ), l.foldl
      (fun table i => Function.update table (labels i) (nconc1 (table (labels i)) i).2) table c =
        table c ++ l.filter (labels · = c) := by
    intro l
    induction l with
    | nil => exact fun table => (List.append_nil _).symm
    | cons i l ih =>
        intro table
        rw [List.foldl_cons, ih, nconc1_snd, Function.update_apply]
        by_cases hi : c = labels i
        · subst hi
          rw [if_pos rfl, List.filter_cons_of_pos (by simp), List.append_assoc]
          rfl
        · rw [if_neg hi, List.filter_cons_of_neg (by simpa using Ne.symm hi)]
  rw [classIndices, hloop, hempty _ _ (fun _ => rfl), List.nil_append]

/-! ## Shuffled classes -/

/-- The indices of a class, in the order in which they are dealt. -/
def dealt (draws : ℤ → Draws) (n : ℕ) (labels : ℕ → ℤ) (c : ℤ) : List ℕ :=
  let idxs := classIndices n labels c
  (List.range idxs.length).map fun pi =>
    idxs.getD (msShuffle (draws c) (idxs.length - 1) id pi) 0

theorem shuffleIdx_pos {d : Draws} {m : ℕ} (hm : 0 < m) :
    shuffleIdx d m = .ok (msShuffle d (m - 1) id) := by
  rw [shuffleIdx, intMatrix, if_neg (by omega)]
  rfl

theorem classIndices_pos (hc : c ∈ classes n labels) : 0 < (classIndices n labels c).length := by
  obtain ⟨⟨i, hi, heq⟩, -⟩ := mem_classes.mp hc
  rw [classIndices_eq]
  exact List.length_pos_of_mem (List.mem_filter.mpr ⟨List.mem_range.mpr hi, by simpa using heq⟩)

/-- A shuffle keeps the indices of a class. -/
theorem dealt_perm (draws : ℤ → Draws) (n : ℕ) (labels : ℕ → ℤ) (c : ℤ) :
    (dealt draws n labels c).Perm ((List.range n).filter (labels · = c)) := by
  rw [dealt, ← classIndices_eq]
  generalize classIndices n labels c = idxs
  have hself : (List.range idxs.length).map (fun i => idxs.getD i 0) = idxs := by
    apply List.ext_getElem (by simp)
    intro i hi _
    have hi' : i < idxs.length := by simpa using hi
    rw [List.getElem_map, List.getElem_range, List.getD_eq_getElem _ _ hi']
  rcases Nat.eq_zero_or_pos idxs.length with hzero | hpos
  · rw [hzero, List.eq_nil_of_length_eq_zero hzero]
    rfl
  · have hperm := shuffleIdx_perm (shuffleIdx_pos (d := draws c) hpos)
    have hmap := hperm.map fun i => idxs.getD i 0
    rwa [hself, List.map_map] at hmap

/-- The indices whose class is not lost. -/
def kept (n : ℕ) (labels : ℕ → ℤ) : List ℕ :=
  (List.range n).filter (labels · ∈ classes n labels)

/-- All classes together. -/
theorem flatMap_dealt_perm (draws : ℤ → Draws) (n : ℕ) (labels : ℕ → ℤ) :
    ((classes n labels).flatMap (dealt draws n labels)).Perm (kept n labels) :=
  calc ((classes n labels).flatMap (dealt draws n labels)).Perm
        ((classes n labels).flatMap fun c => (List.range n).filter (labels · = c)) :=
        List.Perm.flatMap_left _ fun c _ => dealt_perm draws n labels c
    _ |>.Perm (kept n labels) :=
        flatMap_filter_perm labels (classes_spec n labels).1

/-- Nothing is lost when `noLabel` is not the smallest label. -/
theorem kept_eq (h : ¬((∃ i < n, labels i = noLabel) ∧ ∀ i < n, noLabel ≤ labels i)) :
    kept n labels = List.range n := by
  apply List.filter_eq_self.mpr
  intro i hi
  have hin := List.mem_range.mp hi
  refine decide_eq_true (mem_classes.mpr ⟨⟨i, hin, rfl⟩, fun hlost => h ⟨⟨i, hin, hlost.1⟩, hlost.2⟩⟩)

/-! ## Writing lists -/

theorem putAll_ok {m : List ℕ} {i : ℕ} {l : List ℕ} (h : i + l.length ≤ m.length) :
    ∃ m', putAll (m, i) l = .ok (m', i + l.length) ∧
      m' = m.take i ++ l ++ m.drop (i + l.length) := by
  induction l generalizing m i with
  | nil => exact ⟨m, rfl, by simp⟩
  | cons v l ih =>
      rw [List.length_cons] at h
      obtain ⟨m', hm', heq⟩ := @ih (m.set i v) (i + 1) (by rw [List.length_set]; omega)
      refine ⟨m', ?_, ?_⟩
      · have hput : put (m, i) v = .ok (m.set i v, i + 1) := if_pos (by show i < m.length; omega)
        rw [putAll, List.foldlM_cons, hput, ok_bind, List.length_cons, ← Nat.add_assoc,
          Nat.add_right_comm]
        exact hm'
      · have hi : i < m.length := by omega
        have htake : (m.set i v).take (i + 1) = m.take i ++ [v] := by
          rw [List.take_succ_eq_append_getElem (by simpa using hi), List.getElem_set_self,
            List.take_set_of_le le_rfl]
        rw [heq, htake, List.drop_set_of_lt (by omega), List.length_cons]
        simp [Nat.add_assoc, Nat.add_comm 1]

/-- A list fills a new vector. -/
theorem putAll_fresh {l : List ℕ} (h : 0 < l.length) :
    intMatrix l.length = .ok (List.replicate l.length 0) ∧
      putAll (List.replicate l.length 0, 0) l = .ok (l, l.length) := by
  refine ⟨if_neg (by omega), ?_⟩
  obtain ⟨m', hm', heq⟩ := @putAll_ok (List.replicate l.length 0) 0 l (by simp)
  rw [hm', heq]
  simp

/-- A loop whose rounds do not fail. -/
theorem foldlM_eq_ok {α σ : Type} {f : σ → α → Except Fault σ} {g : σ → α → σ} {l : List α}
    (h : ∀ a ∈ l, ∀ s, f s a = .ok (g s a)) (s : σ) : l.foldlM f s = .ok (l.foldl g s) := by
  induction l generalizing s with
  | nil => rfl
  | cons a l ih =>
      rw [List.foldlM_cons, h a List.mem_cons_self, ok_bind, List.foldl_cons]
      exact ih (fun b hb => h b (List.mem_cons_of_mem _ hb)) _

/-! ## Train and test sets -/

section

variable {K : Type} [Field K] [LinearOrder K] [FloorRing K] {testFraction : K}

/-- How many elements of a class are for the test. -/
def testCount (n : ℕ) (labels : ℕ → ℤ) (testFraction : K) (c : ℤ) : ℕ :=
  (classNtest (classIndices n labels c).length testFraction).toNat

/-- The first elements of a class are for the test. -/
theorem splitRounds_eq (idxs : List ℕ) (perm : ℕ → ℕ) (t : ℤ) (state : List ℕ × List ℕ) (m : ℕ) :
    (List.range m).foldl (splitRound idxs perm t) state =
      (state.1 ++ ((List.range m).map fun pi => idxs.getD (perm pi) 0).drop t.toNat,
        state.2 ++ ((List.range m).map fun pi => idxs.getD (perm pi) 0).take t.toNat) := by
  induction m with
  | zero => simp
  | succ m ih =>
      rw [List.range_succ, List.foldl_append, ih, List.map_append, List.foldl_cons,
        List.foldl_nil, splitRound]
      by_cases hm : (m : ℤ) < t
      · rw [if_pos hm, nconc1_snd, List.drop_of_length_le (by simp; omega),
          List.drop_of_length_le (by simp; omega), List.take_of_length_le (by simp; omega),
          List.take_of_length_le (by simp; omega), List.append_assoc]
        rfl
      · rw [if_neg hm, nconc1_snd, List.drop_append_of_le_length (by simp; omega),
          List.take_append_of_le_length (by simp; omega), List.append_assoc]
        rfl

theorem splitClass_eq (hc : c ∈ classes n labels) (state : List ℕ × List ℕ) :
    splitClass draws (classIndices n labels) testFraction state c =
      .ok (state.1 ++ (dealt draws n labels c).drop (testCount n labels testFraction c),
        state.2 ++ (dealt draws n labels c).take (testCount n labels testFraction c)) := by
  rw [splitClass, shuffleIdx_pos (classIndices_pos hc), ok_bind]
  exact congrArg Except.ok (splitRounds_eq _ _ _ _ _)

/-- What is for training. -/
def trainPart (draws : ℤ → Draws) (n : ℕ) (labels : ℕ → ℤ) (testFraction : K) : List ℕ :=
  (classes n labels).flatMap fun c =>
    (dealt draws n labels c).drop (testCount n labels testFraction c)

/-- What is for the test. -/
def testPart (draws : ℤ → Draws) (n : ℕ) (labels : ℕ → ℤ) (testFraction : K) : List ℕ :=
  (classes n labels).flatMap fun c =>
    (dealt draws n labels c).take (testCount n labels testFraction c)

theorem parts_perm (draws : ℤ → Draws) (n : ℕ) (labels : ℕ → ℤ) (testFraction : K) :
    (trainPart draws n labels testFraction ++ testPart draws n labels testFraction).Perm
      (kept n labels) := by
  refine (List.flatMap_append_perm _ _ _).trans (List.Perm.trans ?_ (flatMap_dealt_perm draws n labels))
  refine List.Perm.flatMap_left _ fun c _ => List.perm_append_comm.trans ?_
  rw [List.take_append_drop]

/-- The loop over the classes. -/
theorem splitClasses_eq (draws : ℤ → Draws) (n : ℕ) (labels : ℕ → ℤ) (testFraction : K) :
    (classes n labels).foldlM (splitClass draws (classIndices n labels) testFraction) ([], []) =
      .ok (trainPart draws n labels testFraction, testPart draws n labels testFraction) := by
  have hfold : ∀ (cs : List ℤ) (A B : ℤ → List ℕ) (state : List ℕ × List ℕ),
      cs.foldl (fun (state : List ℕ × List ℕ) c => (state.1 ++ A c, state.2 ++ B c)) state =
        (state.1 ++ cs.flatMap A, state.2 ++ cs.flatMap B) := by
    intro cs A B
    induction cs with
    | nil => simp
    | cons c cs ih =>
        intro state
        rw [List.foldl_cons, ih, List.flatMap_cons, List.flatMap_cons, List.append_assoc,
          List.append_assoc]
  rw [foldlM_eq_ok (fun c hc state => splitClass_eq hc state), hfold]
  rfl

/-- The function fails when a part is empty, and returns the parts otherwise. -/
theorem stratifiedTrainTestSplit_eq (draws : ℤ → Draws) (n : ℕ) (labels : ℕ → ℤ)
    (testFraction : K) (s : Split) :
    stratifiedTrainTestSplit draws n labels testFraction = .ok s ↔
      trainPart draws n labels testFraction ≠ [] ∧ testPart draws n labels testFraction ≠ [] ∧
        s = ⟨trainPart draws n labels testFraction, testPart draws n labels testFraction⟩ := by
  rw [stratifiedTrainTestSplit, splitClasses_eq, ok_bind]
  generalize trainPart draws n labels testFraction = train
  generalize testPart draws n labels testFraction = test
  constructor
  · intro h
    obtain ⟨m, hm, h⟩ := bind_ok.mp h
    obtain ⟨m', hm', h⟩ := bind_ok.mp h
    have htrain := intMatrix_pos hm
    have htest := intMatrix_pos hm'
    obtain ⟨hnew, hput⟩ := putAll_fresh htrain
    obtain ⟨hnew', hput'⟩ := putAll_fresh htest
    obtain rfl := Except.ok.inj (hm.symm.trans hnew)
    obtain rfl := Except.ok.inj (hm'.symm.trans hnew')
    simp only [hput, hput', ok_bind] at h
    exact ⟨List.length_pos_iff.mp htrain, List.length_pos_iff.mp htest, (Except.ok.inj h).symm⟩
  · rintro ⟨htrain, htest, rfl⟩
    obtain ⟨hnew, hput⟩ := putAll_fresh (List.length_pos_iff.mpr htrain)
    obtain ⟨hnew', hput'⟩ := putAll_fresh (List.length_pos_iff.mpr htest)
    simp only [hnew, ok_bind, hnew', hput, hput']

end

/-! ## Folds -/

/-- What a fold gets of a class. -/
def share (draws : ℤ → Draws) (n : ℕ) (labels : ℕ → ℤ) (k j : ℕ) (c : ℤ) : List ℕ :=
  let idxs := classIndices n labels c
  ((List.range idxs.length).filter (· % k = j)).map fun pi =>
    idxs.getD (msShuffle (draws c) (idxs.length - 1) id pi) 0

/-- The list of a fold. -/
def foldList (draws : ℤ → Draws) (n : ℕ) (labels : ℕ → ℤ) (k j : ℕ) : List ℕ :=
  (classes n labels).flatMap (share draws n labels k j)

variable {j : ℕ}

theorem length_dealRounds (fl : List (List ℕ)) (idxs : List ℕ) (perm : ℕ → ℕ) (m : ℕ) :
    ((List.range m).foldl (dealRound k idxs perm) fl).length = fl.length := by
  induction m with
  | zero => rfl
  | succ m ih =>
      rw [List.range_succ, List.foldl_append, List.foldl_cons, List.foldl_nil, dealRound,
        List.length_set, ih]

/-- Every `k`-th element of a class goes to a fold. -/
theorem dealRounds_getD {fl : List (List ℕ)} (hj : j < fl.length) (idxs : List ℕ)
    (perm : ℕ → ℕ) (m : ℕ) :
    ((List.range m).foldl (dealRound k idxs perm) fl).getD j [] =
      fl.getD j [] ++ ((List.range m).filter (· % k = j)).map fun pi => idxs.getD (perm pi) 0 := by
  induction m with
  | zero => simp
  | succ m ih =>
      have hlen := @length_dealRounds k fl idxs perm m
      rw [List.range_succ, List.foldl_append, List.foldl_cons, List.foldl_nil, dealRound,
        List.filter_append, List.map_append, ← List.append_assoc, ← ih, nconc1_snd]
      generalize (List.range m).foldl (dealRound k idxs perm) fl = fl' at hlen
      by_cases hm : m % k = j
      · rw [hm, List.filter_cons_of_pos (by simpa using hm)]
        simp [List.getD_eq_getElem?_getD, hlen, hj]
      · rw [List.filter_cons_of_neg (by simpa using hm)]
        simp [List.getD_eq_getElem?_getD, List.getElem?_set_ne hm]

theorem dealClass_ok (fl : List (List ℕ)) (hc : c ∈ classes n labels) :
    ∃ fl', dealClass draws (classIndices n labels) k fl c = .ok fl' ∧ fl'.length = fl.length ∧
      ∀ j < fl.length, fl'.getD j [] = fl.getD j [] ++ share draws n labels k j c := by
  rw [dealClass, shuffleIdx_pos (classIndices_pos hc), ok_bind]
  exact ⟨_, rfl, length_dealRounds _ _ _ _, fun j hj => dealRounds_getD hj _ _ _⟩

/-- **All classes are dealt to the folds.** -/
theorem dealClasses_ok (draws : ℤ → Draws) (n : ℕ) (labels : ℕ → ℤ) (k : ℕ) :
    ∃ fl, (classes n labels).foldlM (dealClass draws (classIndices n labels) k)
        ((List.range k).foldl (fun foldLists _ => (nconc1 foldLists []).2) []) = .ok fl ∧
      ∀ j < k, fl.getD j [] = foldList draws n labels k j := by
  have hrun : ∀ (cs : List ℤ) (fl : List (List ℕ)), (∀ c ∈ cs, c ∈ classes n labels) →
      ∃ fl', cs.foldlM (dealClass draws (classIndices n labels) k) fl = .ok fl' ∧
        ∀ j < fl.length, fl'.getD j [] = fl.getD j [] ++ cs.flatMap (share draws n labels k j) := by
    intro cs
    induction cs with
    | nil => exact fun fl _ => ⟨fl, rfl, fun j _ => by simp⟩
    | cons c cs ih =>
        intro fl hcs
        obtain ⟨fl', hdeal, hlen, hget⟩ :=
          @dealClass_ok n k labels draws c fl (hcs c List.mem_cons_self)
        obtain ⟨fl'', hloop, hget'⟩ := ih fl' (fun d hd => hcs d (List.mem_cons_of_mem _ hd))
        refine ⟨fl'', ?_, fun j hj => ?_⟩
        · rw [List.foldlM_cons, hdeal, ok_bind, hloop]
        · rw [hget' j (hlen ▸ hj), hget j hj, List.flatMap_cons, List.append_assoc]
  have hempty : (List.range k).foldl (fun foldLists _ => (nconc1 foldLists []).2) [] =
      (List.range k).map fun _ => ([] : List ℕ) := by
    rw [foldl_nconc1 (fun _ => ([] : List ℕ)), List.nil_append]
  obtain ⟨fl, hloop, hget⟩ :=
    hrun (classes n labels) ((List.range k).map fun _ => ([] : List ℕ)) fun _ h => h
  refine ⟨fl, by rw [hempty, hloop], fun j hj => ?_⟩
  rw [hget j (by simpa using hj), foldList, List.getD_eq_getElem _ _ (by simpa using hj),
    List.getElem_map, List.nil_append]

/-- The folds have what is dealt. -/
theorem flatMap_share_perm (hk : 0 < k) (c : ℤ) :
    ((List.range k).flatMap fun j => share draws n labels k j c).Perm (dealt draws n labels c) := by
  rw [dealt]
  simp only [share]
  generalize (classIndices n labels c) = idxs
  rw [← List.map_flatMap]
  refine List.Perm.map _ ?_
  have hperm := @flatMap_filter_perm _ _ _ (· % k) _ (List.range idxs.length)
    (List.nodup_range (n := k))
  rwa [List.filter_eq_self.mpr fun pi _ => by simpa using Nat.mod_lt pi hk] at hperm

theorem flatMap_foldList_perm (draws : ℤ → Draws) (n : ℕ) (labels : ℕ → ℤ) (hk : 0 < k) :
    ((List.range k).flatMap (foldList draws n labels k)).Perm (kept n labels) :=
  calc ((List.range k).flatMap (foldList draws n labels k)).Perm
        ((classes n labels).flatMap fun c =>
          (List.range k).flatMap fun j => share draws n labels k j c) :=
        flatMap_comm_perm (fun j c => share draws n labels k j c) _ _
    _ |>.Perm ((classes n labels).flatMap (dealt draws n labels)) :=
        List.Perm.flatMap_left _ fun c _ => flatMap_share_perm hk c
    _ |>.Perm (kept n labels) := flatMap_dealt_perm draws n labels

/-- The other folds. -/
def otherFolds (draws : ℤ → Draws) (n : ℕ) (labels : ℕ → ℤ) (k fi : ℕ) : List ℕ :=
  ((List.range k).filter (· ≠ fi)).flatMap (foldList draws n labels k)

theorem otherFolds_perm {fi : ℕ} (hfi : fi < k) :
    (otherFolds draws n labels k fi ++ foldList draws n labels k fi).Perm (kept n labels) := by
  have hrange : (List.range k).Perm (fi :: (List.range k).filter (· ≠ fi)) := by
    have herase := List.perm_cons_erase (List.mem_range.mpr hfi)
    have hne : (fun j : ℕ => j != fi) = fun j => decide (j ≠ fi) := by
      funext j
      by_cases h : j = fi <;> simp [h]
    rwa [List.nodup_range.erase_eq_filter, hne] at herase
  calc (otherFolds draws n labels k fi ++ foldList draws n labels k fi).Perm
        (foldList draws n labels k fi ++ otherFolds draws n labels k fi) := List.perm_append_comm
    _ |>.Perm ((List.range k).flatMap (foldList draws n labels k)) :=
        (hrange.flatMap_right _).symm
    _ |>.Perm (kept n labels) := flatMap_foldList_perm draws n labels (by omega)

/-- The lists that are written one after the other are written as one. -/
theorem fillTrain_eq {fl : List (List ℕ)} {fi : ℕ} {js : List ℕ} (hjs : ∀ j ∈ js, j < k)
    (hfl : ∀ j < k, fl.getD j [] = foldList draws n labels k j) (state : List ℕ × ℕ) :
    js.foldlM (fun state fj => if fj ≠ fi then putAll state (fl.getD fj []) else .ok state) state =
      putAll state ((js.filter (· ≠ fi)).flatMap (foldList draws n labels k)) := by
  induction js generalizing state with
  | nil => rfl
  | cons j js ih =>
      have ih' := ih fun i hi => hjs i (List.mem_cons_of_mem _ hi)
      rw [List.foldlM_cons]
      by_cases hj : j = fi
      · rw [if_neg (not_not.mpr hj), ok_bind, ih', List.filter_cons_of_neg (by simpa using hj)]
      · rw [if_pos hj, List.filter_cons_of_pos (by simpa using hj), List.flatMap_cons,
          hfl j (hjs j List.mem_cons_self)]
        simp only [putAll, List.foldlM_append]
        congr 1
        funext state'
        exact ih' state'

/-- A fold that is made has a test set, and its training set when nothing is lost. -/
theorem makeFold_ok {fl : List (List ℕ)} (hfl : ∀ j < k, fl.getD j [] = foldList draws n labels k j)
    {fi : ℕ} (hfi : fi < k) {result result' : List Split}
    (h : makeFold n k fl result fi = .ok result') :
    foldList draws n labels k fi ≠ [] ∧ (kept n labels = List.range n →
      result' = result ++ [⟨otherFolds draws n labels k fi, foldList draws n labels k fi⟩]) := by
  rw [makeFold] at h
  have hfill : ∀ state, (List.range k).foldlM (fun state fj =>
      if fj ≠ fi then putAll state (fl.getD fj []) else .ok state) state =
        putAll state (otherFolds draws n labels k fi) :=
    fillTrain_eq (fun j hj => List.mem_range.mp hj) hfl
  simp only [hfl fi hfi, hfill] at h
  obtain ⟨m, hm, h⟩ := bind_ok.mp h
  obtain ⟨m', hm', h⟩ := bind_ok.mp h
  have hpos := intMatrix_pos hm
  refine ⟨List.length_pos_iff.mp hpos, fun hkept => ?_⟩
  have hlen := (@otherFolds_perm n k labels draws fi hfi).length_eq
  rw [hkept, List.length_append, List.length_range] at hlen
  have hothers : n - (foldList draws n labels k fi).length =
      (otherFolds draws n labels k fi).length := by omega
  rw [hothers] at hm'
  obtain ⟨hnew, hput⟩ := putAll_fresh hpos
  obtain ⟨hnew', hput'⟩ := putAll_fresh (intMatrix_pos hm')
  obtain rfl := Except.ok.inj (hm.symm.trans hnew)
  obtain rfl := Except.ok.inj (hm'.symm.trans hnew')
  simp only [hput, hput', ok_bind] at h
  rw [← Except.ok.inj h, nconc1_snd]

theorem makeFolds_ok {fl : List (List ℕ)}
    (hfl : ∀ j < k, fl.getD j [] = foldList draws n labels k j) {i : ℕ} (hi : i ≤ k)
    {result : List Split} (h : (List.range i).foldlM (makeFold n k fl) [] = .ok result) :
    (∀ j < i, foldList draws n labels k j ≠ []) ∧ (kept n labels = List.range n →
      result = (List.range i).map fun j =>
        ⟨otherFolds draws n labels k j, foldList draws n labels k j⟩) := by
  induction i generalizing result with
  | zero =>
      obtain rfl := Except.ok.inj h
      exact ⟨fun j hj => absurd hj (Nat.not_lt_zero j), fun _ => rfl⟩
  | succ i ih =>
      rw [List.range_succ, List.foldlM_append] at h
      obtain ⟨result', hresult', hlast⟩ := bind_ok.mp h
      obtain ⟨hne, heq⟩ := ih (by omega) hresult'
      rw [List.foldlM_cons] at hlast
      obtain ⟨result'', hround, hend⟩ := bind_ok.mp hlast
      obtain rfl := Except.ok.inj hend
      obtain ⟨hne', heq'⟩ := makeFold_ok hfl (by omega) hround
      refine ⟨fun j hj => ?_, fun hkept => ?_⟩
      · rcases Nat.lt_succ_iff_lt_or_eq.mp hj with hlt | rfl
        · exact hne j hlt
        · exact hne'
      · rw [heq' hkept, heq hkept, List.range_succ, List.map_append]
        rfl

/-- What `stratified-kfold-indices` returns. -/
theorem stratifiedKfoldIndices_ok {folds : List Split}
    (h : stratifiedKfoldIndices draws n labels k = .ok folds) :
    2 ≤ k ∧ (∀ j < k, foldList draws n labels k j ≠ []) ∧ (kept n labels = List.range n →
      folds = (List.range k).map fun j =>
        ⟨otherFolds draws n labels k j, foldList draws n labels k j⟩) := by
  rw [stratifiedKfoldIndices] at h
  split_ifs at h with hk
  obtain ⟨fl, hdeal, hfl⟩ := dealClasses_ok draws n labels k
  simp only [hdeal, ok_bind] at h
  exact ⟨by omega, makeFolds_ok hfl le_rfl h⟩

/-! ## Balance -/

theorem labels_of_mem_share {i : ℕ} (hk : j < k) (hi : i ∈ share draws n labels k j c) :
    labels i = c := by
  have hmem : i ∈ (List.range k).flatMap fun j => share draws n labels k j c :=
    List.mem_flatMap.mpr ⟨j, List.mem_range.mpr hk, hi⟩
  rw [(flatMap_share_perm (by omega) c).mem_iff, (dealt_perm draws n labels c).mem_iff] at hmem
  simpa using (List.mem_filter.mp hmem).2

/-- The number of elements of a class in a fold. -/
theorem length_share (hj : j < k) :
    (share draws n labels k j c).length = (classIndices n labels c).length / k +
      if j < (classIndices n labels c).length % k then 1 else 0 := by
  have hcount := Nat.count_modEq_card (classIndices n labels c).length (r := k) (by omega) j
  rw [Nat.mod_eq_of_lt hj] at hcount
  rw [← hcount, share, List.length_map, ← List.countP_eq_length_filter, Nat.count]
  congr 1
  funext i
  simp only [Nat.ModEq, Nat.mod_eq_of_lt hj]

/-- **Within each class the folds are balanced.** -/
theorem balanced_class (draws : ℤ → Draws) (n : ℕ) (labels : ℕ → ℤ) (k : ℕ) (c : ℤ) :
    Balanced (fun f => (f.testIdx.filter (labels · = c)).length)
      ((List.range k).map fun j =>
        ⟨otherFolds draws n labels k j, foldList draws n labels k j⟩) := by
  intro f hf g hg
  obtain ⟨i, hi, rfl⟩ := List.mem_map.mp hf
  obtain ⟨j, hj, rfl⟩ := List.mem_map.mp hg
  have hik := List.mem_range.mp hi
  have hjk := List.mem_range.mp hj
  have hclasses := (classes_spec n labels).1
  simp only [foldList]
  rw [filter_flatMap_of_key hclasses fun c l hl => labels_of_mem_share hik hl,
    filter_flatMap_of_key hclasses fun c l hl => labels_of_mem_share hjk hl]
  split_ifs
  · rw [length_share hik, length_share hjk]
    split_ifs <;> omega
  · exact Nat.zero_le _

/-! ## When the splits are partitions -/

section

variable {K : Type} [Field K] [LinearOrder K] [FloorRing K] {testFraction : K} {d : Draws}

/-- What the four functions return is a partition of the indices, and folds are balanced: all
together, and within each class if they are stratified. -/
structure Partitions (d : Draws) (draws : ℤ → Draws) (n : ℕ) (labels : ℕ → ℤ) (k : ℕ)
    (testFraction : K) : Prop where
  trainTest : ∀ s, trainTestSplit d n testFraction = .ok s → s.Covers n
  kfold : ∀ folds, kfoldIndices d n k = .ok folds →
    Folds n k folds ∧ Balanced (fun f => f.testIdx.length) folds
  stratifiedTrainTest : ∀ s, stratifiedTrainTestSplit draws n labels testFraction = .ok s →
    s.Covers n
  stratifiedKfold : ∀ folds, stratifiedKfoldIndices draws n labels k = .ok folds →
    Folds n k folds ∧ ∀ c, Balanced (fun f => (f.testIdx.filter (labels · = c)).length) folds

/-- The label `noLabel` is the smallest one. -/
def SmallestLabel (n : ℕ) (labels : ℕ → ℤ) : Prop :=
  (∃ i < n, labels i = noLabel) ∧ ∀ i < n, noLabel ≤ labels i

/-- No other label comes twice. -/
def OthersOnce (n : ℕ) (labels : ℕ → ℤ) : Prop :=
  ∀ i < n, ∀ j < n, labels i = labels j → labels i ≠ noLabel → i = j

/-- Nothing is lost. -/
theorem partitions_of_kept (hkept : kept n labels = List.range n) :
    Partitions d draws n labels k testFraction where
  trainTest _ h := trainTestSplit_covers h
  kfold _ h := kfoldIndices_folds h
  stratifiedTrainTest s h := by
    obtain ⟨-, -, rfl⟩ := (stratifiedTrainTestSplit_eq draws n labels testFraction s).mp h
    rw [Split.Covers, ← hkept]
    exact parts_perm draws n labels testFraction
  stratifiedKfold folds h := by
    obtain ⟨hk, -, hfolds⟩ := stratifiedKfoldIndices_ok h
    obtain rfl := hfolds hkept
    refine ⟨⟨by simp, fun f hf => ?_, ?_⟩, fun c => balanced_class draws n labels k c⟩
    · obtain ⟨j, hj, rfl⟩ := List.mem_map.mp hf
      rw [Split.Covers, ← hkept]
      exact otherFolds_perm (List.mem_range.mp hj)
    · rw [List.flatMap_map, ← hkept]
      exact flatMap_foldList_perm draws n labels (by omega)

/-- The other classes have one element each. -/
theorem length_classIndices_le (hlost : SmallestLabel n labels) (honce : OthersOnce n labels)
    (hc : c ∈ classes n labels) : (classIndices n labels c).length ≤ 1 := by
  have hne : c ≠ noLabel := fun heq => (mem_classes.mp hc).2 ⟨heq, hlost.2⟩
  rw [classIndices_eq, ← List.countP_eq_length_filter]
  show Nat.count (fun i => labels i = c) n ≤ 1
  rw [Nat.count_eq_card_filter_range, Finset.card_le_one]
  intro i hi j hj
  obtain ⟨hin, rfl⟩ := Finset.mem_filter.mp hi
  obtain ⟨hjn, hij⟩ := Finset.mem_filter.mp hj
  exact honce i (Finset.mem_range.mp hin) j (Finset.mem_range.mp hjn) hij.symm hne

/-- A part that is empty is an error. -/
theorem partitions_of_once (hlost : SmallestLabel n labels) (honce : OthersOnce n labels) :
    Partitions d draws n labels k testFraction where
  trainTest _ h := trainTestSplit_covers h
  kfold _ h := kfoldIndices_folds h
  stratifiedTrainTest s h := by
    obtain ⟨-, htest, -⟩ := (stratifiedTrainTestSplit_eq draws n labels testFraction s).mp h
    refine absurd (List.flatMap_eq_nil_iff.mpr fun c hc => ?_) htest
    have hle := length_classIndices_le hlost honce hc
    have hcount : testCount n labels testFraction c = 0 := by
      rw [testCount, classNtest, if_neg (by omega)]
      omega
    rw [hcount, List.take_zero]
  stratifiedKfold folds h := by
    obtain ⟨hk, hne, -⟩ := stratifiedKfoldIndices_ok h
    refine absurd (List.flatMap_eq_nil_iff.mpr fun c hc => ?_) (hne 1 (by omega))
    have hle := length_classIndices_le hlost honce hc
    apply List.eq_nil_of_length_eq_zero
    rw [length_share (by omega), Nat.div_eq_of_lt (by omega), Nat.mod_eq_of_lt (by omega),
      if_neg (by omega)]

/-- **A class that is lost is in no part of the split.** -/
theorem not_partitions (hlost : SmallestLabel n labels) (honce : ¬OthersOnce n labels) :
    ¬Partitions d draws n labels k testFraction := by
  intro h
  simp only [OthersOnce] at honce
  push Not at honce
  obtain ⟨i, hi, j, hj, hij, hne, hdiff⟩ := honce
  have hc : labels i ∈ classes n labels := mem_classes.mpr ⟨⟨i, hi, rfl⟩, fun hl => hne hl.1⟩
  -- The class of `i` and `j` has at least two elements.
  have hlen : 2 ≤ (classIndices n labels (labels i)).length := by
    rw [classIndices_eq, ← List.countP_eq_length_filter]
    show 2 ≤ Nat.count (fun l => labels l = labels i) n
    rw [Nat.count_eq_card_filter_range]
    refine Finset.one_lt_card.mpr ⟨i, ?_, j, ?_, hdiff⟩
    · exact Finset.mem_filter.mpr ⟨Finset.mem_range.mpr hi, rfl⟩
    · exact Finset.mem_filter.mpr ⟨Finset.mem_range.mpr hj, hij.symm⟩
  have hdealt : (dealt draws n labels (labels i)).length =
      (classIndices n labels (labels i)).length := by
    rw [dealt, List.length_map, List.length_range]
  have hcount : 0 < testCount n labels testFraction (labels i) ∧
      testCount n labels testFraction (labels i) <
        (classIndices n labels (labels i)).length := by
    rw [testCount, classNtest, if_pos hlen]
    omega
  have htrain : trainPart draws n labels testFraction ≠ [] := by
    refine fun hnil => ?_
    have hdrop := congrArg List.length (List.flatMap_eq_nil_iff.mp hnil _ hc)
    rw [List.length_drop, List.length_nil] at hdrop
    omega
  have htest : testPart draws n labels testFraction ≠ [] := by
    refine fun hnil => ?_
    have htake := congrArg List.length (List.flatMap_eq_nil_iff.mp hnil _ hc)
    rw [List.length_take, List.length_nil] at htake
    omega
  have hcovers := h.stratifiedTrainTest _
    ((stratifiedTrainTestSplit_eq draws n labels testFraction _).mpr ⟨htrain, htest, rfl⟩)
  obtain ⟨⟨l, hl, hlabel⟩, hmin⟩ := hlost
  have hmem : l ∈ kept n labels := by
    rw [← (parts_perm draws n labels testFraction).mem_iff]
    exact hcovers.mem_iff.mpr (List.mem_range.mpr hl)
  have hclass := of_decide_eq_true (List.mem_filter.mp hmem).2
  exact (mem_classes.mp hclass).2 ⟨hlabel, hmin⟩

/-- **The splits are partitions** unless `noLabel` is the smallest label and some other label
comes twice. -/
theorem splits_partition_iff (d : Draws) (draws : ℤ → Draws) (n : ℕ) (labels : ℕ → ℤ) (k : ℕ)
    (testFraction : K) :
    Partitions d draws n labels k testFraction ↔
      ¬SmallestLabel n labels ∨ OthersOnce n labels := by
  constructor
  · intro h
    by_contra hno
    push Not at hno
    exact not_partitions hno.1 hno.2 h
  · rintro (hno | honce)
    · exact partitions_of_kept (kept_eq hno)
    · by_cases hlost : SmallestLabel n labels
      · exact partitions_of_once hlost honce
      · exact partitions_of_kept (kept_eq hlost)

end

/-- The labels `-999999999, 0, 0`. -/
def threeLabels : ℕ → ℤ := fun i => if i = 0 then -999999999 else 0

/-- The first one of these labels is in no part. -/
theorem not_partitions_threeLabels :
    ¬Partitions (fun _ => 0) (fun _ _ => 0) 3 threeLabels 2 ((1 : ℚ) / 2) := by
  refine not_partitions ⟨⟨0, by decide, rfl⟩, by decide⟩ fun honce => ?_
  exact absurd (honce 1 (by decide) 2 (by decide) rfl (by decide)) (by decide)

end Lush.Splits
