import Lush.Modules.Executable

/-!
# Loading and unloading

The owner of a symbol is the bundle of the chain that defines it (`Consistent`),
whatever is loaded and unloaded, and whether it succeeds or not.

The marks are those of the last search.  `nsbundle_unload` searches while the
symbols of the bundle are still there, and `nsbundle_load` does not search again
where it fails, so that there the marks may be those of another state.
-/

namespace Lush.Modules

open Resolution Links

variable {ν σ : Type} [DecidableEq ν] [DecidableEq σ]

/-- A bundle is executable if its references are its own, or those of executable
bundles, or those of the system. -/
def ExactlyExecutable (isdef : σ → Bool) (s : State ν σ) : Prop :=
  ∀ b ∈ s.bundles.chain, 0 ≤ s.marks.executable b ↔ ∀ x ∈ s.bundles.symref b,
    x ∈ s.bundles.symdef b ∨
      (∃ c ∈ s.bundles.chain, c ≠ b ∧ x ∈ s.bundles.symdef c ∧ 0 ≤ s.marks.executable c) ∨
      ((∀ c ∈ s.bundles.chain, x ∉ s.bundles.symdef c) ∧ isdef x = true)

/-- The symbols belong to whom they did, and the same bundles are executable. -/
structure LeftAlone (s s' : State ν σ) : Prop where
  symtable : s'.bundles.symtable = s.bundles.symtable
  executable : ∀ b ∈ s.bundles.chain, 0 ≤ s'.marks.executable b ↔ 0 ≤ s.marks.executable b

/-- What is expected of an operation. -/
def Event.Meets (isdef : σ → Bool) (e : Event ν σ) : Prop :=
  match e.op, e.done with
  | _, true => ExactlyExecutable isdef e.after
  | .load _ _, false => LeftAlone e.before e.after
  | .unload _, false => True

/-- The bundles with a file among them. -/
def Bundles.withFile (B : Bundles ν σ) (bundle : ν) (file : ObjectFile σ) : Bundles ν σ :=
  { B.insert bundle file with
    symtable := fun x => if x ∈ file.symdef then some bundle else B.symtable x }

/-- The bundles without one of them. -/
def Bundles.without (B : Bundles ν σ) (bundle : ν) : Bundles ν σ :=
  { B.remove bundle with
    symtable := fun x => if B.symtable x = some bundle then none else B.symtable x }

/-- The marks are those of the state that the operation leads to: where a file runs
into circular dependencies, the bundles that can be resolved together with it are
those that are executable; and after a bundle is unloaded, no bundle that can be
resolved without it refers to its symbols. -/
def Op.Settled (isdef : σ → Bool) (s : State ν σ) : Op ν σ → Prop
  | .load bundle file =>
      (∀ x ∈ file.symdef, s.bundles.symtable x = none) →
      (links isdef (s.bundles.withFile bundle file) none).Cyclic →
      ∀ b ∈ s.bundles.chain,
        (links isdef (s.bundles.withFile bundle file) none).Resolved b ↔ 0 ≤ s.marks.executable b
  | .unload bundle =>
      ¬ (links isdef s.bundles (some bundle)).Cyclic →
      ∀ b ∈ s.bundles.chain, b ≠ bundle →
        (links isdef (s.bundles.without bundle) none).Resolved b →
        ∀ x ∈ s.bundles.symref b, x ∉ s.bundles.symdef bundle

/-! ## Symbols -/

/-- The owner of a symbol is the bundle that defines it. -/
structure Consistent (B : Bundles ν σ) : Prop where
  nodup : B.chain.Nodup
  owner : ∀ x c, B.symtable x = some c ↔ c ∈ B.chain ∧ x ∈ B.symdef c

section Symbols

variable {B : Bundles ν σ} {b : ν} {snames : List σ} {t : σ → Option ν} {file : ObjectFile σ}

omit [DecidableEq ν] [DecidableEq σ] in
theorem Consistent.closed (h : Consistent B) : Closed B :=
  fun x c hx => ((h.owner x c).mp hx).1

omit [DecidableEq ν] [DecidableEq σ] in
theorem Consistent.owner_eq_none (h : Consistent B) {x : σ} :
    B.symtable x = none ↔ ∀ c ∈ B.chain, x ∉ B.symdef c := by
  rw [Option.eq_none_iff_forall_ne_some]
  constructor
  · intro hnone c hc hx
    exact hnone c ((h.owner x c).mpr ⟨hc, hx⟩)
  · intro hnone c hx
    obtain ⟨hc, hxc⟩ := (h.owner x c).mp hx
    exact hnone c hc hxc

omit [DecidableEq ν] [DecidableEq σ] in
theorem Consistent.not_owner (h : Consistent B) (hb : b ∉ B.chain) (x : σ) :
    B.symtable x ≠ some b :=
  fun hx => hb ((h.owner x b).mp hx).1

/-- Symbols are marked: those that are free become the bundle's, up to the first one
that is another's. -/
theorem symmarkLoop_mark (x : σ) :
    (symmarkLoop b (some b) snames t).1 x = t x ∨
      (x ∈ snames ∧ t x = none ∧ (symmarkLoop b (some b) snames t).1 x = some b) := by
  induction snames generalizing t with
  | nil => exact .inl rfl
  | cons y snames ih =>
      rw [symmarkLoop]
      split_ifs with hdup hfree
      · exact .inl rfl
      · by_cases hxy : x = y
        · subst hxy
          rcases ih (t := Function.update t x (some b)) with h | ⟨_, hnone, _⟩
          · rw [Function.update_self] at h
            rcases hfree with hnone | hown
            · exact .inr ⟨List.mem_cons_self, hnone, h⟩
            · exact .inl (h.trans hown.symm)
          · rw [Function.update_self] at hnone
            cases hnone
        · have hsame : Function.update t y (some b) x = t x := Function.update_of_ne hxy ..
          rcases ih (t := Function.update t y (some b)) with h | ⟨hmem, hnone, h⟩
          · exact .inl (h.trans hsame)
          · exact .inr ⟨List.mem_cons_of_mem _ hmem, hsame ▸ hnone, h⟩
      · rcases ih (t := t) with h | ⟨hmem, hnone, h⟩
        · exact .inl h
        · exact .inr ⟨List.mem_cons_of_mem _ hmem, hnone, h⟩

/-- The marking succeeds if no symbol is another's; then all are the bundle's. -/
theorem symmarkLoop_free (h : ∀ x ∈ snames, t x = none ∨ t x = some b) :
    symmarkLoop b (some b) snames t = (fun x => if x ∈ snames then some b else t x, none) := by
  induction snames generalizing t with
  | nil => simp [symmarkLoop]
  | cons y snames ih =>
      obtain ⟨hy, hrest⟩ := List.forall_mem_cons.mp h
      have hdup : ¬ (t y ≠ none ∧ some b ≠ none ∧ t y ≠ some b) := by
        intro hdup
        exact hy.elim hdup.1 hdup.2.2
      rw [symmarkLoop, if_neg hdup, if_pos hy, ih]
      · congr 1
        funext x
        by_cases hxy : x = y
        · subst hxy
          simp
        · simp [hxy]
      · intro x hx
        by_cases hxy : x = y
        · subst hxy
          exact .inr (Function.update_self ..)
        · rw [Function.update_of_ne hxy]
          exact hrest x hx

/-- The marking fails if a symbol is another's. -/
theorem symmarkLoop_duplicate {x : σ} (hx : x ∈ snames) (hnone : t x ≠ none)
    (hne : t x ≠ some b) : (symmarkLoop b (some b) snames t).2.isSome = true := by
  induction snames generalizing t with
  | nil => cases hx
  | cons y snames ih =>
      rw [symmarkLoop]
      split_ifs with hdup hfree
      · rfl
      · have hxy : x ≠ y := by
          rintro rfl
          exact hfree.elim hnone hne
        have hsame : Function.update t y (some b) x = t x := Function.update_of_ne hxy ..
        exact ih ((List.mem_cons.mp hx).resolve_left hxy) (hsame ▸ hnone) (hsame ▸ hne)
      · have hxy : x ≠ y := by
          rintro rfl
          exact hdup ⟨hnone, Option.some_ne_none b, hne⟩
        exact ih ((List.mem_cons.mp hx).resolve_left hxy) hnone hne

/-- The bundle's symbols are freed. -/
theorem symmarkLoop_none :
    symmarkLoop b none snames t =
      (fun x => if x ∈ snames ∧ t x = some b then none else t x, none) := by
  induction snames generalizing t with
  | nil => simp [symmarkLoop]
  | cons y snames ih =>
      rw [symmarkLoop, if_neg (by simp)]
      split_ifs with hfree
      · rw [ih]
        congr 1
        funext x
        by_cases hxy : x = y
        · subst hxy
          rcases hfree with hnone | hown
          · simp [hnone]
          · simp [hown]
        · simp [hxy]
      · rw [ih]
        congr 1
        funext x
        by_cases hxy : x = y
        · subst hxy
          have hown : t x ≠ some b := fun h => hfree (.inr h)
          simp [hown]
        · simp [hxy]

/-- A file none of whose symbols has an owner. -/
theorem symmark_insert (hfree : ∀ x ∈ file.symdef, B.symtable x = none) :
    symmark (B.insert b file) b (some b) = (B.withFile b file, none) := by
  have hloop : symmarkLoop b (some b) ((B.insert b file).symdef b).reverse B.symtable =
      (fun x => if x ∈ ((B.insert b file).symdef b).reverse then some b else B.symtable x, none) := by
    apply symmarkLoop_free
    intro x hx
    exact .inl (hfree x (by simpa [Bundles.insert] using hx))
  have hsymtable : (fun x => if x ∈ ((B.insert b file).symdef b).reverse then some b
      else B.symtable x) = fun x => if x ∈ file.symdef then some b else B.symtable x := by
    funext x
    simp [Bundles.insert]
  change ({ B.insert b file with symtable := (symmarkLoop b (some b)
    ((B.insert b file).symdef b).reverse B.symtable).1 },
    (symmarkLoop b (some b) ((B.insert b file).symdef b).reverse B.symtable).2) = _
  rw [hloop, hsymtable]
  rfl

/-- Where a file is not loaded, its symbols are freed again. -/
theorem symmark_undo (hb : ∀ x, B.symtable x ≠ some b) :
    (symmark (symmark (B.insert b file) b (some b)).1 b none).1.symtable = B.symtable := by
  change (symmarkLoop b none ((B.insert b file).symdef b).reverse
    (symmarkLoop b (some b) ((B.insert b file).symdef b).reverse B.symtable).1).1 = _
  rw [symmarkLoop_none]
  funext x
  have hmark : let t := (symmarkLoop b (some b) ((B.insert b file).symdef b).reverse B.symtable).1
      t x = B.symtable x ∨
        x ∈ ((B.insert b file).symdef b).reverse ∧ B.symtable x = none ∧ t x = some b :=
    symmarkLoop_mark x
  rcases hmark with hsame | ⟨hmem, hnone, hmark⟩
  · simp only [hsame]
    rw [if_neg fun h => hb x h.2]
  · simp only [hmark]
    rw [if_pos ⟨hmem, trivial⟩, hnone]

/-- The symbols of a bundle that is unloaded. -/
theorem symmark_none (h : Consistent B) :
    (symmark B b none).1.remove b = B.without b := by
  have hsymtable : (symmarkLoop b none (B.symdef b).reverse B.symtable).1 =
      fun x => if B.symtable x = some b then none else B.symtable x := by
    rw [symmarkLoop_none]
    funext x
    have hmem : x ∈ (B.symdef b).reverse ∧ B.symtable x = some b ↔ B.symtable x = some b := by
      refine and_iff_right_of_imp ?_
      intro hx
      exact List.mem_reverse.mpr ((h.owner x b).mp hx).2
    simp only [hmem]
  change Bundles.remove { B with symtable := (symmarkLoop b none (B.symdef b).reverse
    B.symtable).1 } b = _
  rw [hsymtable]
  rfl

/-! ## The owners of the symbols -/

theorem Consistent.withFile (h : Consistent B) (hb : b ∉ B.chain)
    (hfree : ∀ x ∈ file.symdef, B.symtable x = none) : Consistent (B.withFile b file) where
  nodup := List.nodup_cons.mpr ⟨hb, h.nodup⟩
  owner x c := by
    change (if x ∈ file.symdef then some b else B.symtable x) = some c ↔
      c ∈ b :: B.chain ∧ x ∈ Function.update B.symdef b file.symdef c
    by_cases hcb : c = b
    · subst hcb
      rw [Function.update_self]
      split_ifs with hx
      · simp [hx]
      · simp [hx, h.not_owner hb x]
    · rw [Function.update_of_ne hcb, List.mem_cons, or_iff_right hcb, ← h.owner x c]
      split_ifs with hx
      · rw [hfree x hx]
        simp [Ne.symm hcb]
      · rfl

omit [DecidableEq σ] in
theorem Consistent.without (h : Consistent B) : Consistent (B.without b) where
  nodup := h.nodup.erase b
  owner x c := by
    change (if B.symtable x = some b then none else B.symtable x) = some c ↔
      c ∈ B.chain.erase b ∧ x ∈ Function.update B.symdef b [] c
    rw [h.nodup.mem_erase_iff]
    by_cases hcb : c = b
    · subst hcb
      split_ifs with hx
      · simp
      · simp [hx]
    · rw [Function.update_of_ne hcb]
      split_ifs with hx
      · have hnot : ¬ (c ∈ B.chain ∧ x ∈ B.symdef c) := by
          rw [← h.owner x c, hx]
          exact fun heq => hcb (Option.some.inj heq).symm
        simp [hcb] at hnot ⊢
        exact hnot
      · rw [h.owner x c]
        simp [hcb]

omit [DecidableEq ν] [DecidableEq σ] in
/-- A bundle that is not in the chain is forgotten. -/
theorem Consistent.forget (h : Consistent B) (hb : b ∉ B.chain) {B' : Bundles ν σ}
    (hchain : B'.chain = B.chain) (hsymtable : B'.symtable = B.symtable)
    (hsymdef : ∀ c, c ≠ b → B'.symdef c = B.symdef c) : Consistent B' where
  nodup := hchain ▸ h.nodup
  owner x c := by
    rw [hchain, hsymtable, h.owner x c]
    refine and_congr_right ?_
    intro hc
    rw [hsymdef c]
    rintro rfl
    exact hb hc

end Symbols

/-! ## Operations -/

section Operations

variable {isdef : σ → Bool} {B : Bundles ν σ} {b c : ν} {m : Marks ν σ} {file : ObjectFile σ}
  {s : State ν σ}

omit [DecidableEq ν] [DecidableEq σ] in
/-- Among the bundles, a reference is fine if it is of one of the three kinds. -/
theorem Consistent.fine_iff (h : Consistent B) (hc : c ∈ B.chain) {x : σ} :
    (links isdef B none).Fine c x ↔ x ∈ B.symdef c ∨
      (∃ d ∈ B.chain, d ≠ c ∧ x ∈ B.symdef d ∧ (links isdef B none).Resolved d) ∨
      ((∀ d ∈ B.chain, x ∉ B.symdef d) ∧ isdef x = true) := by
  constructor
  · intro hfine
    cases howner : B.symtable x with
    | none => exact .inr (.inr ⟨h.owner_eq_none.mp howner, hfine.given howner⟩)
    | some d =>
        obtain ⟨hd, hx⟩ := (h.owner x d).mp howner
        by_cases hdc : d = c
        · exact .inl (hdc ▸ hx)
        · exact .inr (.inl ⟨d, hd, hdc, hx, hfine.owned d howner hdc⟩)
  · intro hkinds
    constructor
    · intro hnone
      have hall := h.owner_eq_none.mp hnone
      rcases hkinds with hx | ⟨d, hd, _, hx, _⟩ | ⟨_, hgiven⟩
      · exact absurd hx (hall c hc)
      · exact absurd hx (hall d hd)
      · exact hgiven
    · intro d howner hdc
      obtain ⟨hd, hxd⟩ := (h.owner x d).mp howner
      rcases hkinds with hx | ⟨d', hd', _, hx, hres⟩ | ⟨hall, _⟩
      · exact absurd (Option.some.inj (howner.symm.trans ((h.owner x c).mpr ⟨hc, hx⟩))) hdc
      · cases Option.some.inj (howner.symm.trans ((h.owner x d').mpr ⟨hd', hx⟩))
        exact hres
      · exact absurd hxd (hall d hd)

omit [DecidableEq ν] [DecidableEq σ] in
/-- After a search in which every bundle takes part, the marks are exact. -/
theorem Executables.exact (h : Executables isdef B none m) (hB : Consistent B) :
    ExactlyExecutable isdef ⟨B, m⟩ := by
  intro c hc
  have hres : 0 ≤ m.executable c ↔ ∀ x ∈ B.symref c, (links isdef B none).Fine c x := by
    have hoff : ¬ (links isdef B none).off c := Option.some_ne_none c
    rw [h.executable c hc, resolved_iff, and_iff_right hoff]
    exact forall_congr' fun x => imp_congr_left List.mem_reverse
  refine hres.trans (forall₂_congr fun x _ => ?_)
  rw [hB.fine_iff hc]
  refine or_congr_right (or_congr_left ?_)
  refine exists_congr fun d => and_congr_right fun hd => ?_
  rw [← h.executable d hd]

omit [DecidableEq σ] in
theorem forget_of_ne (h : c ≠ b) : (m.forget b).executable c = m.executable c := by
  simp [Marks.forget, setExecutable_of_ne h]

/-- The loading of a file. -/
theorem load_ok (h : Consistent s.bundles) (hb : b ∉ s.bundles.chain) :
    ∃ done s', nsbundleLoad isdef b file s = .ok (done, s') ∧ Consistent s'.bundles ∧
      (Event.Meets isdef ⟨s, .load b file, done, s'⟩ ↔ Op.Settled isdef s (.load b file)) := by
  have hundo : (symmark (symmark (s.bundles.insert b file) b (some b)).1 b none).1.symtable =
      s.bundles.symtable := symmark_undo (h.not_owner hb)
  have hne : ∀ c ∈ s.bundles.chain, c ≠ b := by
    rintro c hc rfl
    exact hb hc
  -- what a failure leaves
  have hfail : ∀ m : Marks ν σ, Consistent
      (failLoad (symmark (s.bundles.insert b file) b (some b)).1 b m).bundles := by
    intro m
    refine h.forget hb (List.erase_cons_head ..) hundo ?_
    intro c hc
    have htwice : (failLoad (symmark (s.bundles.insert b file) b (some b)).1 b m).bundles.symdef c =
      Function.update (Function.update s.bundles.symdef b file.symdef) b [] c := rfl
    rw [htwice, Function.update_of_ne hc, Function.update_of_ne hc]
  by_cases hfree : ∀ x ∈ file.symdef, s.bundles.symtable x = none
  · have hmark := symmark_insert (b := b) hfree
    have hcons := h.withFile hb hfree
    obtain ⟨m', hexec, hfound⟩ : ∃ m', execAllBut isdef (s.bundles.withFile b file) none
        (s.marks.forget b) = .ok m' ∧ Executables isdef (s.bundles.withFile b file) none m' :=
      execAllBut_ok hcons.closed fun _ hnone => by cases hnone
    rw [hmark] at hfail hundo
    have hload : nsbundleLoad isdef b file s =
        if m'.error.isSome then .ok (false, failLoad (s.bundles.withFile b file) b m')
        else .ok (true, ⟨s.bundles.withFile b file, m'⟩) := by
      unfold nsbundleLoad
      simp only [hmark, hexec, bind, Except.bind]
      rfl
    by_cases hcyclic : (links isdef (s.bundles.withFile b file) none).Cyclic
    · rw [hload, if_pos (hfound.error.mpr hcyclic)]
      refine ⟨_, _, rfl, hfail m', ?_⟩
      have hmarks : ∀ c ∈ s.bundles.chain,
          (0 ≤ (failLoad (s.bundles.withFile b file) b m').marks.executable c ↔
            (links isdef (s.bundles.withFile b file) none).Resolved c) := by
        intro c hc
        rw [← hfound.executable c (List.mem_cons_of_mem _ hc)]
        change 0 ≤ (m'.forget b).executable c ↔ _
        rw [forget_of_ne (hne c hc)]
      constructor
      · intro hmeets _ _ c hc
        rw [← hmarks c hc]
        exact hmeets.executable c hc
      · intro hsettled
        refine ⟨hundo, ?_⟩
        intro c hc
        exact (hmarks c hc).trans (hsettled hfree hcyclic c hc)
    · rw [hload, if_neg fun he => hcyclic (hfound.error.mp he)]
      refine ⟨_, _, rfl, hcons, ?_⟩
      exact iff_of_true (hfound.exact hcons) fun _ hc => absurd hc hcyclic
  · push Not at hfree
    obtain ⟨x, hx, hnone⟩ := hfree
    have hdup : (symmark (s.bundles.insert b file) b (some b)).2.isSome = true := by
      refine symmarkLoop_duplicate (x := x) ?_ hnone (h.not_owner hb x)
      simpa [Bundles.insert] using hx
    obtain ⟨sname, hsname⟩ := Option.isSome_iff_exists.mp hdup
    have hload : nsbundleLoad isdef b file s = .ok (false,
        failLoad (symmark (s.bundles.insert b file) b (some b)).1 b
          { s.marks.forget b with error := some (.duplicate sname) }) := by
      unfold nsbundleLoad
      simp only [hsname]
    rw [hload]
    refine ⟨_, _, rfl, hfail _, iff_of_true ⟨hundo, ?_⟩ fun hfree => absurd (hfree x hx) hnone⟩
    intro c hc
    change 0 ≤ (Marks.forget { s.marks.forget b with error := some (.duplicate sname) } b).executable
      c ↔ _
    rw [forget_of_ne (hne c hc)]
    change 0 ≤ (s.marks.forget b).executable c ↔ _
    rw [forget_of_ne (hne c hc)]

omit [DecidableEq σ] in
/-- What is resolved where a bundle is not executable is resolved without it. -/
theorem resolved_without (hc : (links isdef B (some b)).Resolved c) :
    (links isdef (B.without b) none).Resolved c := by
  have hne : ∀ d, (links isdef B (some b)).Resolved d → d ≠ b := by
    rintro d hd rfl
    exact (resolved_iff.mp hd).1 rfl
  refine hc.mono (fun _ _ => Option.some_ne_none _) ?_ ?_
  · intro d hd
    change (Function.update B.symref b [] d).reverse = (B.symref d).reverse
    rw [Function.update_of_ne (hne d hd)]
  · intro d hd x hx hrest
    have hfine := (resolved_iff.mp hd).2 x hx
    -- the owner is not the bundle, which is not resolved
    have howner : B.symtable x ≠ some b := by
      intro hb
      exact hne b (hfine.owned b hb (hne d hd).symm) rfl
    have hsame : (B.without b).symtable x = B.symtable x := if_neg howner
    constructor
    · intro hnone
      exact hfine.given (hsame.symm.trans hnone)
    · intro e he hed
      exact hrest e (hsame.symm.trans he) hed

omit [DecidableEq σ] in
theorem Consistent.mem_without (h : Consistent B) :
    c ∈ (B.without b).chain ↔ c ≠ b ∧ c ∈ B.chain :=
  h.nodup.mem_erase_iff

omit [DecidableEq σ] in
theorem without_symref (hc : c ≠ b) : (B.without b).symref c = B.symref c :=
  Function.update_of_ne hc ..

omit [DecidableEq σ] in
theorem owner_of_without {x : σ} {d : ν} (h : (B.without b).symtable x = some d) :
    B.symtable x = some d := by
  change (if B.symtable x = some b then none else B.symtable x) = some d at h
  split_ifs at h
  exact h

omit [DecidableEq σ] in
/-- The marks of a search in which `b` takes no part are exact for the bundles
without it exactly when none of them that can be resolved refers to its symbols. -/
theorem Executables.exact_without_iff (h : Executables isdef B (some b) m) (hB : Consistent B)
    (hb : b ∈ B.chain) :
    ExactlyExecutable isdef ⟨B.without b, m.forget b⟩ ↔
      ∀ c ∈ B.chain, c ≠ b → (links isdef (B.without b) none).Resolved c →
        ∀ x ∈ B.symref c, x ∉ B.symdef b := by
  have hB' : Consistent (B.without b) := hB.without
  have hmarks : ∀ d ∈ B.chain, d ≠ b →
      (0 ≤ (m.forget b).executable d ↔ (links isdef B (some b)).Resolved d) := by
    intro d hd hdb
    rw [forget_of_ne hdb]
    exact h.executable d hd
  constructor
  · intro hexact c hc hcb hres x hx hxb
    -- what can be resolved without the bundle is marked
    have hmarked : ∀ d, (links isdef (B.without b) none).Resolved d → d ∈ (B.without b).chain →
        0 ≤ (m.forget b).executable d := by
      intro d hd
      induction hd with
      | @intro d hoff hgiven howned ih =>
          intro hmem
          refine (hexact d hmem).mpr ?_
          intro y hy
          have hy' := List.mem_reverse.mpr hy
          cases howner : (B.without b).symtable y with
          | none => exact .inr (.inr ⟨hB'.owner_eq_none.mp howner, hgiven y hy' howner⟩)
          | some e =>
              obtain ⟨he, hye⟩ := (hB'.owner y e).mp howner
              by_cases hed : e = d
              · exact .inl (hed ▸ hye)
              · exact .inr (.inl ⟨e, he, hed, hye, ih y hy' e howner hed he⟩)
    have hbres := (hmarks c hc hcb).mp (hmarked c hres (hB.mem_without.mpr ⟨hcb, hc⟩))
    have hfine := (resolved_iff.mp hbres).2 x (List.mem_reverse.mpr hx)
    exact (resolved_iff.mp (hfine.owned b ((hB.owner x b).mpr ⟨hb, hxb⟩) hcb.symm)).1 rfl
  · intro hsettled c hmem
    obtain ⟨hcb, hc⟩ := hB.mem_without.mp hmem
    rw [hmarks c hc hcb]
    change _ ↔ ∀ x ∈ (B.without b).symref c, _
    rw [without_symref hcb]
    constructor
    · intro hres x hx
      have hfine := (resolved_iff.mp hres).2 x (List.mem_reverse.mpr hx)
      cases howner : (B.without b).symtable x with
      | none =>
          have hx' : x ∈ (links isdef (B.without b) none).refs c := by
            refine List.mem_reverse.mpr ?_
            rw [without_symref hcb]
            exact hx
          exact .inr (.inr ⟨hB'.owner_eq_none.mp howner,
            ((resolved_iff.mp (resolved_without hres)).2 x hx').given howner⟩)
      | some d =>
          obtain ⟨hd, hxd⟩ := (hB'.owner x d).mp howner
          by_cases hdc : d = c
          · exact .inl (hdc ▸ hxd)
          · obtain ⟨hdb, hd'⟩ := hB.mem_without.mp hd
            exact .inr (.inl ⟨d, hd, hdc, hxd,
              (hmarks d hd' hdb).mpr (hfine.owned d (owner_of_without howner) hdc)⟩)
    · intro hkinds
      have hres : (links isdef (B.without b) none).Resolved c := by
        refine resolved_iff.mpr ⟨Option.some_ne_none c, ?_⟩
        intro x hx
        have hx' : x ∈ B.symref c := by
          rw [← without_symref hcb]
          exact List.mem_reverse.mp hx
        refine (hB'.fine_iff hmem).mpr ?_
        rcases hkinds x hx' with hown | ⟨d, hd, hdc, hxd, hmark⟩ | hgiven
        · exact .inl hown
        · obtain ⟨hdb, hd'⟩ := hB.mem_without.mp hd
          exact .inr (.inl ⟨d, hd, hdc, hxd, resolved_without ((hmarks d hd' hdb).mp hmark)⟩)
        · exact .inr (.inr hgiven)
      have hnot := hsettled c hc hcb hres
      refine resolved_iff.mpr ⟨fun hoff => hcb (Option.some.inj hoff), ?_⟩
      intro x hx
      have hxc := List.mem_reverse.mp hx
      -- no reference is the bundle's, so that all owners are as before
      have hsame : (B.without b).symtable x = B.symtable x := by
        refine if_neg ?_
        intro howner
        exact hnot x hxc ((hB.owner x b).mp howner).2
      have hx' : x ∈ (links isdef (B.without b) none).refs c := by
        refine List.mem_reverse.mpr ?_
        rw [without_symref hcb]
        exact hxc
      have hfine := (resolved_iff.mp hres).2 x hx'
      constructor
      · intro hnone
        exact hfine.given (hsame.trans hnone)
      · intro d howner hdc
        obtain ⟨hd, hxd⟩ := (hB'.owner x d).mp (hsame.trans howner)
        rcases hkinds x hxc with hown | ⟨e, he, hec, hxe, hmark⟩ | ⟨hall, _⟩
        · have hself := (hB'.owner x c).mpr ⟨hmem, hown⟩
          exact absurd (Option.some.inj (howner.symm.trans (hsame.symm.trans hself))) hdc
        · have hother := (hB'.owner x e).mpr ⟨he, hxe⟩
          cases Option.some.inj (howner.symm.trans (hsame.symm.trans hother))
          obtain ⟨hdb, hd'⟩ := hB.mem_without.mp hd
          exact (hmarks d hd' hdb).mp hmark
        · exact absurd hxd (hall d hd)

/-- The unloading of a bundle. -/
theorem unload_ok (h : Consistent s.bundles) (hb : b ∈ s.bundles.chain) :
    ∃ done s', nsbundleUnload isdef b s = .ok (done, s') ∧ Consistent s'.bundles ∧
      (Event.Meets isdef ⟨s, .unload b, done, s'⟩ ↔ Op.Settled isdef s (.unload b)) := by
  obtain ⟨m', hexec, hfound⟩ : ∃ m', execAllBut isdef s.bundles (some b) s.marks = .ok m' ∧
      Executables isdef s.bundles (some b) m' :=
    execAllBut_ok h.closed fun c hc => Option.some.inj hc ▸ hb
  have hunload : nsbundleUnload isdef b s =
      if m'.error.isSome then .ok (false, ⟨s.bundles, m'⟩)
      else .ok (true, ⟨s.bundles.without b, m'.forget b⟩) := by
    unfold nsbundleUnload
    rw [symmark_none h]
    simp only [hexec, bind, Except.bind]
    rfl
  by_cases hcyclic : (links isdef s.bundles (some b)).Cyclic
  · rw [hunload, if_pos (hfound.error.mpr hcyclic)]
    exact ⟨_, _, rfl, h, iff_of_true trivial fun hc => absurd hcyclic hc⟩
  · rw [hunload, if_neg fun he => hcyclic (hfound.error.mp he)]
    refine ⟨_, _, rfl, h.without, (hfound.exact_without_iff h hb).trans ?_⟩
    exact ⟨fun hall _ => hall, fun hall => hall hcyclic⟩

/-- **One operation.** -/
theorem step_ok (isdef : σ → Bool) (h : Consistent s.bundles) {op : Op ν σ}
    (hallowed : op.Allowed s) :
    ∃ done s', step isdef op s = .ok (done, s') ∧ Consistent s'.bundles ∧
      (Event.Meets isdef ⟨s, op, done, s'⟩ ↔ op.Settled isdef s) := by
  cases op with
  | load b file => exact load_ok h hallowed
  | unload b => exact unload_ok h hallowed

end Operations

/-! ## Histories -/

section Histories

variable {isdef : σ → Bool} {events : List (Event ν σ)} {s : State ν σ}

theorem History.consistent (h : History isdef events s) : Consistent s.bundles := by
  induction h with
  | start =>
      refine ⟨List.nodup_nil, ?_⟩
      intro x c
      exact iff_of_false (fun hx => nomatch hx) fun hx => List.not_mem_nil hx.1
  | step h hallowed hstep ih =>
      obtain ⟨done, s', hstep', hcons, _⟩ := step_ok isdef ih hallowed
      cases hstep.symm.trans hstep'
      exact hcons

/-- **The loader does what is expected in the histories in which the marks are those
of the state that each operation leads to**, and in no others; no search goes on
for ever. -/
theorem history_meets_iff (h : History isdef events s) :
    ((∀ e ∈ events, e.Meets isdef) ↔ ∀ e ∈ events, e.op.Settled isdef e.before) ∧
      ∀ op : Op ν σ, op.Allowed s → ∃ done s', step isdef op s = .ok (done, s') := by
  constructor
  · induction h with
    | start => exact iff_of_true (List.forall_mem_nil _) (List.forall_mem_nil _)
    | step h hallowed hstep ih =>
        obtain ⟨done, s', hstep', _, hmeets⟩ := step_ok isdef h.consistent hallowed
        cases hstep.symm.trans hstep'
        rw [List.forall_mem_cons, List.forall_mem_cons, ih, hmeets]
  · intro op hallowed
    obtain ⟨done, s', hstep, _⟩ := step_ok isdef h.consistent hallowed
    exact ⟨done, s', hstep⟩

end Histories

/-! ## A symbol that the system supplies as well -/

/-- All symbols are supplied by the system. -/
def supplied : ℕ → Bool := fun _ => true

/-- A file that refers to the symbol 7. -/
def user : ObjectFile ℕ := ⟨[], [7]⟩

/-- A file that defines the symbol 7. -/
def definer : ObjectFile ℕ := ⟨[7], []⟩

/-- What an operation leads to, if it is carried out. -/
def afterOp (op : Op ℕ ℕ) (s : State ℕ ℕ) : State ℕ ℕ :=
  match step supplied op s with
  | .ok (_, s') => s'
  | .error _ => s

/-- One file is loaded. -/
def userLoaded : State ℕ ℕ := afterOp (.load 0 user) start

/-- Both files are loaded. -/
def bothLoaded : State ℕ ℕ := afterOp (.load 1 definer) userLoaded

theorem history_userLoaded :
    History supplied [⟨start, .load 0 user, true, userLoaded⟩] userLoaded :=
  .step .start (by decide) rfl

theorem history_meets_userLoaded :
    (∀ e ∈ [(⟨start, .load 0 user, true, userLoaded⟩ : Event ℕ ℕ)], e.Meets supplied) ∧
      ∀ op : Op ℕ ℕ, op.Allowed userLoaded → ∃ done s', step supplied op userLoaded = .ok (done, s') := by
  refine ⟨(history_meets_iff history_userLoaded).1.mpr ?_, (history_meets_iff history_userLoaded).2⟩
  intro e he
  cases List.mem_singleton.mp he
  intro _ _ b hb
  exact absurd hb List.not_mem_nil

/-- After the second file is unloaded, the first one is not executable any more,
though the system supplies its symbol. -/
theorem not_meets_unload : History supplied
    [⟨bothLoaded, .unload 1, true, afterOp (.unload 1) bothLoaded⟩,
      ⟨userLoaded, .load 1 definer, true, bothLoaded⟩,
      ⟨start, .load 0 user, true, userLoaded⟩] (afterOp (.unload 1) bothLoaded) ∧
    ¬ Event.Meets supplied ⟨bothLoaded, .unload 1, true, afterOp (.unload 1) bothLoaded⟩ := by
  refine ⟨.step (.step history_userLoaded (by decide) rfl) (by decide) rfl, ?_⟩
  intro hmeets
  have hexact := hmeets 0 (by decide)
  have hlow : ¬ 0 ≤ (afterOp (.unload 1) bothLoaded).marks.executable 0 := by decide
  refine hlow (hexact.mpr ?_)
  decide

end Lush.Modules
