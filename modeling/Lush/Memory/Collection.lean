import Lush.Memory.Garbage

/-!
# What a garbage collection leaves

The collector relies on each phase for the next one: after the flagging, the
flag is gone exactly from what the roots reach (`unflag_ok`), so the destructors
meet unreachable objects only (`Alive.zombify`); the counters that the marking
finds at zero then become the numbers of references (`mark_ok`), and the free
list gets the cells that are left at zero.  From there on, reference counting
keeps the counters exact while unused symbols are removed (`purgeNames_ok`).
-/

namespace Lush.Memory

open Traversal Counting

variable {ν : Type}

/-! ## What is assumed of the destructors -/

/-- Destructors do not touch the objects that are in use and not garbage, except
that they may release references to them. -/
structure Spares (f : ν → Heap ν → Heap ν) : Prop where
  names : ∀ a h, (f a h).names = h.names
  guarded : ∀ a h, (f a h).guarded = h.guarded
  count : ∀ a h b, h.count b ≠ 0 → h.garbage b = false → (f a h).count b ≠ 0
  garbage : ∀ a h b, h.count b ≠ 0 → h.garbage b = false → (f a h).garbage b = false
  finalizer : ∀ a h b, h.count b ≠ 0 → h.garbage b = false →
    (f a h).finalizer b = h.finalizer b
  body : ∀ a h b, h.count b ≠ 0 → h.garbage b = false → (f a h).body b = h.body b

/-- All three of them. -/
structure Destructors.Spare (d : Destructors ν) : Prop where
  oostructDispose : Spares d.oostructDispose
  selfDispose : Spares d.selfDispose
  runFinalizers : Spares d.runFinalizers

/-! ## Reachability -/

/-- Graphs with the same references on what is reachable reach the same. -/
theorem reachable_congr {children children' : ν → List (Option ν)} {roots : List (Option ν)}
    (h : ∀ a, Reachable children roots a → children' a = children a) (a : ν) :
    Reachable children' roots a ↔ Reachable children roots a := by
  refine ⟨fun ha => ?_, fun ha => ?_⟩
  · refine ha.induction (P := Reachable children roots) (fun b hb => .of_mem hb) fun b c hb hc => ?_
    rw [h b hb] at hc
    exact hb.step hc
  · suffices hboth : Reachable children roots a ∧ Reachable children' roots a from hboth.2
    refine ha.induction (P := fun b => Reachable children roots b ∧ Reachable children' roots b)
      (fun b hb => ⟨.of_mem hb, .of_mem hb⟩) fun b c hb hc => ⟨hb.1.step hc, ?_⟩
    rw [← h b hb.1] at hc
    exact hb.2.step hc

theorem popall_popall (b : Body ν) : b.popall.popall = b.popall := by
  cases b <;> rfl

variable [DecidableEq ν]

/-- The contents of the cells when the symbols of the names have been popped. -/
def popped (h : Heap ν) (a : ν) : Body ν :=
  if a ∈ h.names then (h.body a).popall else h.body a

theorem popAll_body (h : Heap ν) : (popAll h).body = popped h := by
  have hfold : ∀ (names : List ν) (body : ν → Body ν) (a : ν),
      names.foldl (fun body a => Function.update body a (body a).popall) body a =
        if a ∈ names then (body a).popall else body a := by
    intro names
    induction names with
    | nil => intro body a; simp
    | cons b names ih =>
        intro body a
        rw [List.foldl_cons, ih]
        by_cases hab : a = b
        · subst hab
          simp [popall_popall]
        · simp [hab]
  funext a
  exact hfold h.names h.body a

/-- The references after the symbols have been popped. -/
def poppedRefs (h : Heap ν) (a : ν) : List (Option ν) :=
  (popped h a).refs

/-! ## Flags -/

/-- The flag of an object is the mark of the tally. -/
theorem unflag_sim (children : ν → List (Option ν)) :
    StepSim children unflag (tally (ε := Fault)) (fun _ => True)
      fun flags c => ∀ a, flags a = true ↔ c a = 0 := by
  intro p flags c go c' h hvisit _
  cases p with
  | none =>
      cases hvisit
      exact ⟨false, flags, rfl, h, Or.inl rfl⟩
  | some a =>
      cases hvisit
      by_cases ha : c a = 0
      · have hflag := (h a).mpr ha
        refine ⟨true, Function.update flags a false, by simp [unflag, hflag], fun b => ?_,
          Or.inl (by simp [ha])⟩
        by_cases hb : b = a
        · subst hb
          simp
        · simp [hb, h b]
      · have hflag := (h a).not.mpr ha
        refine ⟨false, flags, by simp [unflag, hflag], fun b => ?_, Or.inl (by simp [ha])⟩
        by_cases hb : b = a
        · subst hb
          simp [hflag]
        · simp [hb, h b]

variable [Fintype ν]

/-- **Unflagging takes the flag from what is reachable**, and from nothing else,
if all that is reachable has it. -/
theorem unflag_ok {children : ν → List (Option ν)} {roots : List (Option ν)} {flags : ν → Bool}
    (hflags : ∀ a, Reachable children roots a → flags a = true) :
    ∃ flags', walkAll children Fault.depth unflag (Fintype.card ν + 1) roots flags = .ok flags' ∧
      ∀ a, flags' a = true ↔ flags a = true ∧ ¬Reachable children roots a := by
  let c : ν → ℕ := fun a => if flags a = true then 0 else 1
  have hstart : ∀ a, flags a = true ↔ c a = 0 := fun a => by by_cases ha : flags a <;> simp [c, ha]
  obtain ⟨c', hc', htallied⟩ : ∃ c', walkAll children Fault.depth tally (Fintype.card ν + 1) roots c =
      .ok c' ∧ Tallied children roots c c' := walkAll_tally roots c (card_unseen_lt _)
  obtain ⟨flags', hflags', hend⟩ := walkAll_sim (fun _ _ _ _ _ _ => trivial) (unflag_sim children)
    hstart hc' trivial
  refine ⟨flags', hflags', fun a => ?_⟩
  have hne := htallied.ne_zero_iff (fun b hb => (hstart b).mp (hflags b hb)) a
  rw [hend a, hstart a]
  tauto

/-! ## Zombies -/

/-- The reachable objects are as they were, but for the popped symbols. -/
structure Kept (h h' : Heap ν) : Prop where
  names : h'.names = h.names
  guarded : h'.guarded = h.guarded
  finalizer : ∀ a, Reachable (poppedRefs h) h.roots a → h'.finalizer a = h.finalizer a
  body : ∀ a, Reachable (poppedRefs h) h.roots a → h'.body a = popped h a

/-- While the destructors run, the reachable objects are in use, and they are not
garbage. -/
structure Alive (h h' : Heap ν) : Prop extends Kept h h' where
  count : ∀ a, Reachable (poppedRefs h) h.roots a → h'.count a ≠ 0
  garbage : ∀ a, Reachable (poppedRefs h) h.roots a → h'.garbage a = false

variable {h h' : Heap ν} {d : Destructors ν}

omit [Fintype ν] in
/-- A destructor is called. -/
theorem Alive.call (halive : Alive h h') {f : ν → Heap ν → Heap ν} (hf : Spares f) (a : ν) :
    Alive h (f a h') where
  names := (hf.names a h').trans halive.names
  guarded := (hf.guarded a h').trans halive.guarded
  count b hb := hf.count a h' b (halive.count b hb) (halive.garbage b hb)
  garbage b hb := hf.garbage a h' b (halive.count b hb) (halive.garbage b hb)
  finalizer b hb := (hf.finalizer a h' b (halive.count b hb) (halive.garbage b hb)).trans
    (halive.finalizer b hb)
  body b hb := (hf.body a h' b (halive.count b hb) (halive.garbage b hb)).trans (halive.body b hb)

omit [Fintype ν] in
/-- An object that is not reachable becomes a zombie. -/
theorem Alive.zombify (halive : Alive h h') {a : ν}
    (ha : ¬Reachable (poppedRefs h) h.roots a) : Alive h (h'.zombify a) := by
  have hne : ∀ b, Reachable (poppedRefs h) h.roots b → b ≠ a := fun b hb hba => ha (hba ▸ hb)
  refine ⟨⟨halive.names, halive.guarded, fun b hb => ?_, fun b hb => ?_⟩, halive.count,
    fun b hb => ?_⟩
  · simpa [Heap.zombify, hne b hb] using halive.finalizer b hb
  · simpa [Heap.zombify, hne b hb] using halive.body b hb
  · simpa [Heap.zombify, hne b hb] using halive.garbage b hb

omit [Fintype ν] in
theorem Alive.not_reachable (halive : Alive h h') {a : ν} (ha : h'.garbage a = true) :
    ¬Reachable (poppedRefs h) h.roots a := fun hreach => by
  simp [halive.garbage a hreach] at ha

omit [Fintype ν] in
theorem Alive.zombifyOostruct (halive : Alive h h') (hd : d.Spare) (a : ν) :
    Alive h (zombifyOostruct d h' a) := by
  unfold Memory.zombifyOostruct
  split
  · rename_i hgarbage
    have hzombie := (halive.call hd.oostructDispose a).zombify (halive.not_reachable hgarbage.2.1)
    dsimp only
    split
    exacts [hzombie.call hd.runFinalizers a, hzombie]
  · exact halive

omit [Fintype ν] in
theorem Alive.zombifyExtern (halive : Alive h h') (hd : d.Spare) (a : ν) :
    Alive h (zombifyExtern d h' a) := by
  unfold Memory.zombifyExtern
  split
  · rename_i hgarbage
    have hunreachable := halive.not_reachable hgarbage.2
    have hzombie := (halive.call hd.selfDispose a).zombify hunreachable
    dsimp only
    split <;> split
    exacts [hzombie.call hd.runFinalizers a, halive.call hd.runFinalizers a, hzombie, halive]
  · exact halive

/-! ## Counters -/

omit [DecidableEq ν] [Fintype ν] in
/-- What `purge` releases is what `mark` follows. -/
theorem held_parts (body : ν → Body ν) : held (fun a => (body a).parts) = fun a => (body a).refs := by
  funext a
  cases h : body a <;> simp [held, Body.parts, Body.refs, h]

/-- **Marking counts the references.** -/
theorem mark_ok (children : ν → List (Option ν)) (roots : List (Option ν)) :
    ∃ count, walkAll children Fault.depth tally (Fintype.card ν + 1) roots (fun _ => 0) =
        .ok count ∧
      (∀ a, count a = references children roots a) ∧
      ∀ a, count a ≠ 0 ↔ Reachable children roots a := by
  obtain ⟨count, hcount, htallied⟩ : ∃ count, walkAll children Fault.depth tally
      (Fintype.card ν + 1) roots (fun _ => 0) = .ok count ∧
      Tallied children roots (fun _ => 0) count := walkAll_tally roots _ (card_unseen_lt _)
  exact ⟨count, hcount, htallied.count_of_zero,
    fun a => by simpa using htallied.ne_zero_iff (fun _ _ => rfl) a⟩

omit [DecidableEq ν] [Fintype ν] in
/-- The free list gets each free cell once. -/
theorem rebuild_ok (count : ν → ℕ) {cells : List ν} (hnodup : cells.Nodup) :
    (cells.foldl (fun free p => if count p = 0 then p :: free else free) []).Nodup ∧
      ∀ a, a ∈ cells.foldl (fun free p => if count p = 0 then p :: free else free) [] ↔
        a ∈ cells ∧ count a = 0 := by
  have hfold : ∀ free : List ν, cells.foldl (fun free p => if count p = 0 then p :: free else free)
      free = (cells.filter fun p => count p = 0).reverse ++ free := by
    clear hnodup
    induction cells with
    | nil => intro free; rfl
    | cons p cells ih =>
        intro free
        rw [List.foldl_cons, ih]
        by_cases hp : count p = 0 <;> simp [hp]
  rw [hfold, List.append_nil]
  exact ⟨List.nodup_reverse.mpr (hnodup.filter _), fun a => by simp⟩

/-- The counters and the free list, as a store. -/
def Heap.store (h : Heap ν) : Store ν :=
  ⟨h.count, h.freelist⟩

/-- The counters are exact for the names that are left. -/
def Balanced (h : Heap ν) (names : List ν) : Prop :=
  Exact (fun a => (h.body a).parts) (names.map some ++ [h.guarded]) [] [] h.store

/-- Counters that were just counted are exact. -/
theorem balanced_of_references {cells : List ν} (hnodup : cells.Nodup) (hcells : ∀ a, a ∈ cells)
    (hcount : ∀ a, h.count a = references h.refs h.roots a)
    (hreach : ∀ a, h.count a ≠ 0 ↔ Reachable h.refs h.roots a) :
    Balanced (rebuild cells h) h.names := by
  classical
  obtain ⟨hfree, hmem⟩ := rebuild_ok h.count hnodup
  refine ⟨fun a => ?_, hfree, fun a => ?_, by simp, List.nodup_nil⟩
  · have hused : used (rebuild cells h).store = Finset.univ.filter (Reachable h.refs h.roots) := by
      ext b
      simpa [Heap.store, rebuild] using hreach b
    rw [hused]
    show h.count a = h.roots.count (some a) + [].count (some a) +
      ∑ b ∈ Finset.univ.filter (Reachable h.refs h.roots),
        (held (fun a => (h.body a).parts) b).count (some a)
    rw [held_parts, hcount a, references, List.count_nil, Nat.add_zero]
    congr!
  · simp [Heap.store, rebuild, hmem, hcells]

/-! ## Unused symbols -/

/-- What the removal of unused symbols does to the heap. -/
structure Purged (h h' : Heap ν) (names names' : List ν) : Prop where
  sublist : names'.Sublist names
  body : h'.body = h.body
  finalizer : h'.finalizer = h.finalizer
  guarded : h'.guarded = h.guarded
  count : ∀ a, h'.count a ≤ h.count a
  unused : ∀ a ∈ names, a ∉ names' → h'.count a = 0 ∧ ∃ value, h.body a = .symbol [] value false ∧
    h.finalizer a = false ∧ ∀ b, value = some (some b) → (h.body b).isZombie = true

omit [Fintype ν] [DecidableEq ν] in
theorem unusedSymbol_iff {a : ν} : unusedSymbol h a = true ↔ h.count a = 1 ∧
    ∃ value, h.body a = .symbol [] value false ∧ h.finalizer a = false ∧
      ∀ b, value = some (some b) → (h.body b).isZombie = true := by
  unfold unusedSymbol
  split
  · rename_i value nopurge hbody
    rcases value with _ | _ | b <;> cases nopurge <;> simp [hbody, and_assoc]
  · rename_i hbody
    simp only [Bool.false_eq_true, false_iff, not_and, not_exists]
    exact fun _ value hvalue => absurd hvalue (hbody value false)

/-- **Removing unused symbols keeps the counters exact.** -/
theorem purgeNames_ok (names done : List ν) (hbalanced : Balanced h (done ++ names)) :
    ∃ names' h', purgeNames names h = .ok (names', h') ∧ Balanced h' (done ++ names') ∧
      Purged h h' names names' := by
  induction names generalizing h done with
  | nil =>
      exact ⟨[], h, rfl, hbalanced, .refl _, rfl, rfl, rfl, fun _ => le_rfl, by simp⟩
  | cons a names ih =>
      by_cases hunused : unusedSymbol h a = true
      · obtain ⟨hone, value, hbody, hfinalizer, hvalue⟩ := unusedSymbol_iff.mp hunused
        have hroots : ((done ++ a :: names).map some ++ [h.guarded]).Perm
            (some a :: ((done ++ names).map some ++ [h.guarded])) := by
          have hperm : (done ++ a :: names).Perm (a :: (done ++ names)) := List.perm_middle
          exact (hperm.map some).append_right _
        obtain ⟨s, hs, hexact, hle, hlt⟩ := release_ok (Fintype.card ν + 1) _ _ _ _
          (Nat.lt_succ_of_le (Finset.card_le_univ _)) (hbalanced.unroot hroots)
        obtain ⟨names', h', hpurge, hbalanced', hpurged⟩ := ih (h := { h with
          count := s.count, freelist := s.free }) done hexact
        have hzero : h'.count a = 0 := by
          have h1 := hpurged.count a
          have h2 := hlt a rfl
          simp only [Heap.store] at h1 h2
          omega
        refine ⟨names', h', ?_, hbalanced', hpurged.sublist.cons a, hpurged.body,
          hpurged.finalizer, hpurged.guarded, fun b => (hpurged.count b).trans (hle b),
          fun b hb hb' => ?_⟩
        · rw [purgeNames, if_pos hunused]
          simp only [Heap.store] at hs
          rw [hs]
          exact hpurge
        · rcases List.mem_cons.mp hb with rfl | hb
          · exact ⟨hzero, value, hbody, hfinalizer, hvalue⟩
          · exact hpurged.unused b hb hb'
      · have hdone : Balanced h (done ++ [a] ++ names) := by
          rwa [List.append_assoc]
        obtain ⟨names', h', hpurge, hbalanced', hpurged⟩ := ih (done ++ [a]) hdone
        refine ⟨a :: names', h', ?_, by rwa [List.append_assoc] at hbalanced',
          hpurged.sublist.cons_cons a, hpurged.body, hpurged.finalizer, hpurged.guarded,
          hpurged.count, fun b hb hb' => ?_⟩
        · rw [purgeNames, if_neg hunused, hpurge]
          rfl
        · rcases List.mem_cons.mp hb with rfl | hb
          · exact absurd (List.mem_cons_self ..) hb'
          · exact hpurged.unused b hb fun hmem => hb' (List.mem_cons_of_mem a hmem)

/-! ## The collection -/

/-- What a collection makes of the heap `h`. -/
structure Collected (h h' : Heap ν) : Prop where
  /-- Only names are removed. -/
  names : h'.names.Sublist h.names
  guarded : h'.guarded = h.guarded
  /-- A removed name had a symbol without a global value, that may be purged, and
  it is free now. -/
  unused : ∀ a ∈ h.names, a ∉ h'.names → h'.count a = 0 ∧
    ∃ value, popped h a = .symbol [] value false ∧ h.finalizer a = false ∧
      ∀ b, value = some (some b) → (popped h b).isZombie = true
  /-- Reachable objects are as they were, but for the popped symbols. -/
  kept : ∀ a, Reachable (poppedRefs h) h.roots a →
    h'.body a = popped h a ∧ h'.finalizer a = h.finalizer a
  /-- What the names that are left reach is in use. -/
  inUse : ∀ a, Reachable (poppedRefs h) h'.roots a → h'.count a ≠ 0
  /-- The counters are the numbers of references from the roots and from the
  objects in use. -/
  count : ∀ a, h'.count a = h'.roots.count (some a) +
    ∑ b ∈ Finset.univ.filter (fun b => h'.count b ≠ 0), (h'.refs b).count (some a)
  /-- What was not reachable is free. -/
  dead : ∀ a, ¬Reachable (poppedRefs h) h.roots a → h'.count a = 0
  /-- The free list has each free object once, and no other. -/
  nodup : h'.freelist.Nodup
  mem_free : ∀ a, a ∈ h'.freelist ↔ h'.count a = 0
  /-- If no name was removed, the counters are the numbers of references from the
  roots and from what they reach. -/
  exact : h'.names = h.names → ∀ a, h'.count a = references (poppedRefs h) h.roots a

omit [Fintype ν] in
/-- The destructors meet garbage only. -/
theorem Alive.destroy (halive : Alive h h') (hd : d.Spare) (cells : List ν) :
    Alive h (cells.foldl (Memory.zombifyExtern d) (cells.foldl (Memory.zombifyOostruct d) h')) := by
  have hoostruct : Alive h (cells.foldl (Memory.zombifyOostruct d) h') :=
    List.foldlRecOn cells _ halive fun _ hb a _ => hb.zombifyOostruct hd a
  exact List.foldlRecOn cells _ hoostruct fun _ hb a _ => hb.zombifyExtern hd a

/-- What is left of the heap when the counters have been rebuilt. -/
theorem Kept.rebuild (halive : Kept h h') {cells : List ν} (hnodup : cells.Nodup)
    (hcells : ∀ a, a ∈ cells) {count : ν → ℕ}
    (hcount : ∀ a, count a = references h'.refs h.roots a)
    (hreach : ∀ a, count a ≠ 0 ↔ Reachable h'.refs h.roots a) :
    ∃ names' h'', purgeNames h.names (Memory.rebuild cells { h' with count := count }) =
      .ok (names', h'') ∧ Collected h { h'' with names := names' } := by
  have hrefs : ∀ a, Reachable (poppedRefs h) h.roots a → h'.refs a = poppedRefs h a := by
    intro a ha
    rw [Heap.refs, poppedRefs, halive.body a ha]
  have hroots : Heap.roots { h' with count := count } = h.roots := by
    rw [Heap.roots, Heap.roots, halive.names, halive.guarded]
  have hbalanced : Balanced (Memory.rebuild cells { h' with count := count }) h.names := by
    have := balanced_of_references (h := { h' with count := count }) hnodup hcells
      (fun a => by rw [hroots]; exact hcount a) fun a => by rw [hroots]; exact hreach a
    rwa [show ({ h' with count := count } : Heap ν).names = h.names from halive.names] at this
  obtain ⟨names', h'', hpurge, hbalanced', hpurged⟩ := purgeNames_ok h.names [] hbalanced
  have hbody : h''.body = h'.body := hpurged.body
  have hguarded : h''.guarded = h.guarded := hpurged.guarded.trans halive.guarded
  have hsub : Heap.roots { h'' with names := names' } ⊆ h.roots := by
    rw [Heap.roots, Heap.roots, hguarded]
    exact List.append_subset.mpr ⟨fun p hp => List.mem_append_left _
      ((hpurged.sublist.map some).subset hp), List.subset_append_right _ _⟩
  have hkept : ∀ a, Reachable (poppedRefs h) h.roots a → h''.body a = popped h a := by
    intro a ha
    rw [hbody, halive.body a ha]
  have hdead : ∀ a, ¬Reachable (poppedRefs h) h.roots a → h''.count a = 0 := by
    intro a ha
    have hzero : count a = 0 := by
      by_contra hne
      exact ha ((reachable_congr hrefs a).mp ((hreach a).mp hne))
    exact Nat.le_zero.mp (hzero ▸ hpurged.count a)
  have hinUse : ∀ a, Reachable (poppedRefs h) (Heap.roots { h'' with names := names' }) a →
      h''.count a ≠ 0 := by
    intro a ha
    have hheld : ∀ b, Reachable (poppedRefs h) (Heap.roots { h'' with names := names' }) b →
        held (fun b => (h''.body b).parts) b = poppedRefs h b := by
      intro b hb
      rw [held_parts, poppedRefs]
      exact congrArg Body.refs (hkept b (hb.mono hsub))
    exact hbalanced'.ne_zero_of_reachable ((reachable_congr hheld a).mpr ha)
  have hcount' : ∀ a, h''.count a = (Heap.roots { h'' with names := names' }).count (some a) +
      ∑ b ∈ Finset.univ.filter (fun b => h''.count b ≠ 0), (h''.refs b).count (some a) := by
    intro a
    have := hbalanced'.count a
    rwa [held_parts, List.count_nil, Nat.add_zero, List.nil_append] at this
  refine ⟨names', h'', hpurge, ⟨hpurged.sublist, hguarded, fun a ha ha' => ?_, fun a ha =>
    ⟨hkept a ha, ?_⟩, hinUse, hcount', hdead, hbalanced'.nodup, fun a => ?_, fun hnames a => ?_⟩⟩
  · -- the symbol and its value are reachable from the name
    obtain ⟨hzero, value, hsymbol, hfinalizer, hvalue⟩ := hpurged.unused a ha ha'
    have hreach : Reachable (poppedRefs h) h.roots a :=
      .of_mem (List.mem_append_left _ (List.mem_map_of_mem ha))
    have hpopped : popped h a = .symbol [] value false := by
      rw [← halive.body a hreach]
      exact hsymbol
    refine ⟨hzero, value, hpopped, ?_, fun b hb => ?_⟩
    · rw [← halive.finalizer a hreach]
      exact hfinalizer
    · have hb' : some b ∈ poppedRefs h a := by
        simp [poppedRefs, hpopped, Body.refs, hb]
      rw [← halive.body b (hreach.step hb')]
      exact hvalue b hb
  · rw [show h''.finalizer = h'.finalizer from hpurged.finalizer, halive.finalizer a ha]
  · have := hbalanced'.mem_free a
    simpa [Heap.store] using this
  · classical
    have hsame : Heap.roots { h'' with names := names' } = h.roots := by
      rw [Heap.roots, Heap.roots, hguarded, show names' = h.names from hnames]
    have hiff : ∀ b, h''.count b ≠ 0 ↔ Reachable (poppedRefs h) h.roots b := fun b =>
      ⟨fun hne => by_contra fun hnot => hne (hdead b hnot), fun hb => hinUse b (hsame ▸ hb)⟩
    show h''.count a = _
    have hsum : ∑ b ∈ Finset.univ.filter (fun b => h''.count b ≠ 0), (h''.refs b).count (some a) =
        ∑ b ∈ Finset.univ.filter (Reachable (poppedRefs h) h.roots),
          (poppedRefs h b).count (some a) := by
      refine Finset.sum_congr (Finset.filter_congr fun b _ => hiff b) fun b hb => ?_
      rw [Heap.refs, hkept b (Finset.mem_filter.mp hb).2, poppedRefs]
    rw [hcount' a, hsame, references, hsum]
    congr!

/-- **A garbage collection keeps what is reachable**, with exact counters, and
frees the rest, but for the symbols that it pops and removes. -/
theorem garbage_ok (hd : d.Spare) {cells : List ν} (hnodup : cells.Nodup)
    (hcells : ∀ a, a ∈ cells) (h : Heap ν)
    (hinuse : ∀ a, Reachable (poppedRefs h) h.roots a → h.count a ≠ 0) :
    ∃ h', garbage d cells h = .ok h' ∧ Collected h h' := by
  have hrefs : (popAll (flagAll h)).refs = poppedRefs h := by
    funext a
    rw [Heap.refs, popAll_body]
    rfl
  have hflagged : ∀ a, Reachable (poppedRefs h) h.roots a → (flagAll h).garbage a = true :=
    fun a ha => by simp [flagAll, hinuse a ha]
  obtain ⟨flags, hflags, hflag⟩ := unflag_ok hflagged
  have halive : Alive h { popAll (flagAll h) with garbage := flags } := by
    refine ⟨⟨rfl, rfl, fun a _ => rfl, fun a _ => ?_⟩, fun a ha => ?_, fun a ha => ?_⟩
    · show (popAll (flagAll h)).body a = _
      rw [popAll_body]
      rfl
    · simp [popAll, flagAll, hinuse a ha]
    · have := (hflag a).not.mpr fun hand => hand.2 ha
      simpa using this
  have hdestroyed := halive.destroy hd cells
  generalize hh' : cells.foldl (zombifyExtern d) (cells.foldl (zombifyOostruct d)
    { popAll (flagAll h) with garbage := flags }) = h' at hdestroyed
  have hreset : Kept h (reset h') :=
    ⟨hdestroyed.names, hdestroyed.guarded, hdestroyed.finalizer, hdestroyed.body⟩
  have hzero : (reset h').count = fun _ => 0 := by
    funext a
    simp [reset]
  have hroots : (reset h').roots = h.roots := by
    rw [Heap.roots, Heap.roots, hreset.names, hreset.guarded]
  obtain ⟨count, hmark, hcount, hreach⟩ := mark_ok (reset h').refs h.roots
  obtain ⟨names', h'', hpurge, hcollected⟩ := hreset.rebuild hnodup hcells hcount hreach
  refine ⟨{ h'' with names := names' }, ?_, hcollected⟩
  have hstart : (popAll (flagAll h)).roots = h.roots := rfl
  have hnames : (rebuild cells { reset h' with count := count }).names = h.names := hreset.names
  simp only [garbage, hrefs, hstart, hflags, hh', hroots, hzero, hmark, hnames, hpurge,
    show (popAll (flagAll h)).garbage = (flagAll h).garbage from rfl, Bind.bind, Except.bind]

/-- Destructors without any effect. -/
def still (ν : Type) : Destructors ν :=
  ⟨fun _ h => h, fun _ h => h, fun _ h => h⟩

theorem still_spare (ν : Type) : (still ν).Spare := by
  have hspares : Spares fun (_ : ν) h => h :=
    ⟨fun _ _ => rfl, fun _ _ => rfl, fun _ _ _ hb _ => hb, fun _ _ _ _ hb => hb,
      fun _ _ _ _ _ => rfl, fun _ _ _ _ _ => rfl⟩
  exact ⟨hspares, hspares, hspares⟩

/-- A symbol, a circular list, and an object that refers to it. -/
inductive Place
  | symbol
  | list
  | object
deriving DecidableEq

instance : Fintype Place where
  elems := {.symbol, .list, .object}
  complete x := by cases x <;> decide

/-- The symbol is bound to the list, and nothing refers to the object. -/
def loopHeap : Heap Place where
  count _ := 2
  garbage _ := false
  finalizer _ := false
  body
    | .symbol => .symbol [some .object] (some (some .list)) false
    | .list => .cons (some .list) (some .list)
    | .object => .external [some .list] true
  names := [.symbol]
  guarded := none
  freelist := []

theorem garbage_ok_loop : ∃ h', garbage (still Place) [.symbol, .list, .object] loopHeap = .ok h' ∧
    Collected loopHeap h' :=
  garbage_ok (still_spare Place) (by decide) (fun a => by cases a <;> decide) loopHeap
    fun a _ => by simp [loopHeap]

/-- An unbound symbol that only its name refers to, and a symbol with a value on
its stack. -/
def symbolHeap : Heap Bool where
  count _ := 1
  garbage _ := false
  finalizer _ := false
  body
    | false => .symbol [] none false
    | true => .symbol [none] (some none) true
  names := [false, true]
  guarded := none
  freelist := []

/-- Both symbols are named; one is freed, and the other one loses its stack. -/
theorem garbage_symbols :
    Reachable symbolHeap.refs symbolHeap.roots false ∧
    Reachable symbolHeap.refs symbolHeap.roots true ∧
    symbolHeap.body true = .symbol [none] (some none) true ∧
    (garbage (still Bool) [false, true] symbolHeap).toOption.map
        (fun h' => (h'.count false, h'.freelist, h'.body true)) =
      some (0, [false], .symbol [] (some none) true) :=
  ⟨.of_mem (by simp [symbolHeap, Heap.roots]), .of_mem (by simp [symbolHeap, Heap.roots]), rfl, rfl⟩

end Lush.Memory
