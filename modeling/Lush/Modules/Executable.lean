import Lush.Modules.Bundle

/-!
# What is executable

A bundle is executable exactly when its references are resolved, and the search
reports circular dependencies exactly when it can follow the references of a
bundle back to the bundle.

The search is a recursion over the bundles.  Its invariant (`Sound`) tells the
bundles that are done from those on the path of the recursion: the marks of the
former are final, with ranks above those of the bundles they refer to, and those of
the latter can only be lowered, by a bundle that leads back to them.
-/

namespace Lush.Modules

open Resolution Links

variable {ν σ : Type}

/-- The references between the bundles, where `but` is not executable. -/
def links (isdef : σ → Bool) (B : Bundles ν σ) (but : Option ν) : Links ν σ where
  refs b := (B.symref b).reverse
  owner := B.symtable
  given := isdef
  off b := some b = but

/-- The symbols belong to bundles of the chain. -/
def Closed (B : Bundles ν σ) : Prop :=
  ∀ x c, B.symtable x = some c → c ∈ B.chain

/-- The dependencies of a bundle that is done. -/
def Ranked (L : Links ν σ) (D : Set ν) (m : Marks ν σ) (b : ν) : Prop :=
  ∀ x ∈ L.refs b, ∀ d, L.owner x = some d → d ≠ b → d ∈ D ∧ m.executable d < m.executable b

/-- The marks while the search is on the path `path`, with the bundles `D` done. -/
structure Sound (L : Links ν σ) (chain path : List ν) (D : Set ν) (m : Marks ν σ) : Prop where
  onPath : ∀ c ∈ chain, m.recurse c = true ↔ c ∈ path
  off : ∀ c, L.off c → c ∈ D
  fresh : ∀ c ∈ chain, c ∉ D → c ∉ path → m.executable c = 0
  resolved : ∀ c ∈ D, L.Resolved c → 0 ≤ m.executable c ∧ Ranked L D m c
  unresolved : ∀ c ∈ D, ¬ L.Resolved c → m.executable c < 0
  apart : ∀ c ∈ path, c ∉ D
  error : m.error ≠ none → m.error = some .circular ∧ L.Cyclic
  acc : m.error = none → ∀ c ∈ D, Acc (fun c b => L.Follows b c) c

/-- What a search from `b` leaves as it was. -/
structure Extends (L : Links ν σ) (path : List ν) (b : ν) (D : Set ν) (m : Marks ν σ) (D' : Set ν)
    (m' : Marks ν σ) : Prop where
  sub : D ⊆ D'
  same : ∀ c ∈ D, m'.executable c = m.executable c
  onPath : ∀ c ∈ path, m'.executable c = m.executable c ∨
    (m'.executable c < 0 ∧ Relation.ReflTransGen L.Follows b c)
  error : m'.error = none → m.error = none

section Marks

variable {L : Links ν σ} {chain path : List ν} {D D' D'' : Set ν} {m m' m'' : Marks ν σ} {b c : ν}
  {e : ℤ}

theorem Extends.refl : Extends L path b D m D m where
  sub := subset_rfl
  same _ _ := rfl
  onPath _ _ := .inl rfl
  error h := h

theorem Extends.trans (h : Extends L path b D m D' m') (h' : Extends L path b D' m' D'' m'') :
    Extends L path b D m D'' m'' where
  sub := h.sub.trans h'.sub
  same c hc := (h'.same c (h.sub hc)).trans (h.same c hc)
  onPath c hc := by
    rcases h'.onPath c hc with hsame' | hlow
    · rw [hsame']
      exact h.onPath c hc
    · exact .inr hlow
  error he := h.error (h'.error he)

/-- What a search further down leaves as it was. -/
theorem Extends.up (h : Extends L (b :: path) c D m D' m') (hc : L.Follows b c) :
    Extends L path b D m D' m' where
  sub := h.sub
  same := h.same
  onPath a ha := by
    rcases h.onPath a (List.mem_cons_of_mem _ ha) with hsame | ⟨hneg, hchain⟩
    · exact .inl hsame
    · exact .inr ⟨hneg, .head hc hchain⟩
  error := h.error

/-- The path of the recursion, and the depth that is left to it. -/
structure OnPath (L : Links ν σ) (chain path : List ν) (depth : ℕ) (b : ν) : Prop where
  leads : List.IsChain (fun c b => L.Follows b c) (b :: path)
  nodup : path.Nodup
  inChain : ∀ c ∈ path, c ∈ chain
  mem : b ∈ chain
  depth : chain.length + 2 ≤ depth + path.length

/-- Above the path there is depth left. -/
theorem OnPath.depth_pos {depth : ℕ} (h : OnPath L chain path depth b) : 2 ≤ depth := by
  have hlen : path.length ≤ chain.length :=
    (List.subperm_of_subset h.nodup h.inChain).length_le
  have hdepth := h.depth
  omega

theorem OnPath.cons {depth : ℕ} (h : OnPath L chain path (depth + 1) b) (hb : b ∉ path)
    (hc : L.Follows b c) (hmem : c ∈ chain) : OnPath L chain (b :: path) depth c where
  leads := List.isChain_cons_cons.mpr ⟨hc, h.leads⟩
  nodup := List.nodup_cons.mpr ⟨hb, h.nodup⟩
  inChain := List.forall_mem_cons.mpr ⟨h.mem, h.inChain⟩
  mem := hmem
  depth := by
    have hdepth := h.depth
    rw [List.length_cons]
    omega

/-- A resolved bundle is not on the path that leads to it. -/
theorem OnPath.notMem {depth : ℕ} (h : OnPath L chain path depth b) (hb : L.Resolved b) :
    b ∉ path :=
  fun hmem => hb.not_transGen (transGen_of_isChain h.leads hmem)

variable [DecidableEq ν]

@[simp] theorem setExecutable_self : (m.setExecutable b e).executable b = e := by
  simp [Marks.setExecutable]

theorem setExecutable_of_ne (h : c ≠ b) :
    (m.setExecutable b e).executable c = m.executable c := by
  simp [Marks.setExecutable, h]

@[simp] theorem setExecutable_recurse : (m.setExecutable b e).recurse = m.recurse := rfl

@[simp] theorem setExecutable_error : (m.setExecutable b e).error = m.error := rfl

theorem setRecurse_of_ne {r : Bool} (h : c ≠ b) : (m.setRecurse b r).recurse c = m.recurse c := by
  simp [Marks.setRecurse, h]

@[simp] theorem setRecurse_executable {r : Bool} :
    (m.setRecurse b r).executable = m.executable := rfl

@[simp] theorem setRecurse_error {r : Bool} : (m.setRecurse b r).error = m.error := rfl

/-- The marks of the path may be changed. -/
theorem Sound.setExecutable (h : Sound L chain path D m) (hb : b ∈ path) :
    Sound L chain path D (m.setExecutable b e) := by
  have hne : ∀ c ∈ D, c ≠ b := fun c hc hcb => h.apart b hb (hcb ▸ hc)
  refine ⟨h.onPath, h.off, ?_, ?_, ?_, h.apart, h.error, h.acc⟩
  · intro c hc hD hpath
    have hcb : c ≠ b := by
      rintro rfl
      exact hpath hb
    rw [setExecutable_of_ne hcb]
    exact h.fresh c hc hD hpath
  · intro c hc hres
    obtain ⟨hnonneg, hranked⟩ := h.resolved c hc hres
    rw [setExecutable_of_ne (hne c hc)]
    refine ⟨hnonneg, ?_⟩
    intro x hx d howner hd
    obtain ⟨hdD, hlt⟩ := hranked x hx d howner hd
    rw [setExecutable_of_ne (hne c hc), setExecutable_of_ne (hne d hdD)]
    exact ⟨hdD, hlt⟩
  · intro c hc hres
    rw [setExecutable_of_ne (hne c hc)]
    exact h.unresolved c hc hres

/-- Only the marks of the bundle whose references are searched are changed. -/
theorem Extends.setExecutable (hD : b ∉ D) (hpath : b ∉ path) :
    Extends L path b D m D (m.setExecutable b e) where
  sub := subset_rfl
  same _ hc := setExecutable_of_ne fun hcb => hD (hcb ▸ hc)
  onPath _ hc := .inl (setExecutable_of_ne fun hcb => hpath (hcb ▸ hc))
  error h := h

theorem recurse_cons (h : ∀ c ∈ chain, m.recurse c = true ↔ c ∈ path) (hc : c ∈ chain) :
    (m.setRecurse b true).recurse c = true ↔ c ∈ b :: path := by
  by_cases hcb : c = b
  · subst hcb
    exact iff_of_true (Function.update_self ..) List.mem_cons_self
  · rw [setRecurse_of_ne hcb, h c hc, List.mem_cons, or_iff_right hcb]

/-- The search from `b` begins. -/
theorem Sound.enter (h : Sound L chain path D m) (hD : b ∉ D) :
    Sound L chain (b :: path) D (m.setRecurse b true) := by
  refine ⟨fun c => recurse_cons h.onPath, h.off, ?_, h.resolved, h.unresolved, ?_, h.error, h.acc⟩
  · intro c hc hcD hpath
    exact h.fresh c hc hcD fun hcp => hpath (List.mem_cons_of_mem _ hcp)
  · intro c hc
    rcases List.mem_cons.mp hc with rfl | hc
    · exact hD
    · exact h.apart c hc

/-- What the search from `b` has found out when all its references are done, or one
of them is not fine. -/
structure Searched (L : Links ν σ) (D : Set ν) (m : Marks ν σ) (b : ν) : Prop where
  resolved : L.Resolved b → 0 ≤ m.executable b ∧ Ranked L D m b
  unresolved : ¬ L.Resolved b → m.executable b < 0
  met : m.error = none → ∀ c, L.Follows b c → c ∈ D

/-- The search from `b` is over. -/
theorem Sound.leave (h : Sound L chain (b :: path) D m) (hb : Searched L D m b)
    (hpath : b ∉ path) : Sound L chain path (insert b D) (m.setRecurse b false) := by
  refine ⟨?_, fun c hc => .inr (h.off c hc), ?_, ?_, ?_, ?_, h.error, ?_⟩
  · intro c hc
    by_cases hcb : c = b
    · subst hcb
      exact iff_of_false (by simp [Marks.setRecurse]) hpath
    · rw [setRecurse_of_ne hcb, h.onPath c hc, List.mem_cons, or_iff_right hcb]
  · intro c hc hD hcp
    refine h.fresh c hc (fun hcD => hD (.inr hcD)) ?_
    intro hmem
    rcases List.mem_cons.mp hmem with rfl | hmem
    · exact hD (.inl rfl)
    · exact hcp hmem
  · intro c hc hres
    have hrank : 0 ≤ m.executable c ∧ Ranked L D m c := by
      rcases hc with rfl | hc
      · exact hb.resolved hres
      · exact h.resolved c hc hres
    refine ⟨hrank.1, ?_⟩
    intro x hx d howner hd
    obtain ⟨hdD, hlt⟩ := hrank.2 x hx d howner hd
    exact ⟨.inr hdD, hlt⟩
  · intro c hc hres
    rcases hc with rfl | hc
    · exact hb.unresolved hres
    · exact h.unresolved c hc hres
  · intro c hc hmem
    rcases hmem with rfl | hmem
    · exact hpath hc
    · exact h.apart c (List.mem_cons_of_mem _ hc) hmem
  · intro he c hc
    rcases hc with rfl | hc
    · constructor
      intro d hd
      exact h.acc he d (hb.met he d hd)
    · exact h.acc he c hc

end Marks

/-! ## The references of a bundle -/

/-- What is known of the references `xs` that are left to the search from `b`. -/
structure Left (L : Links ν σ) (D : Set ν) (m : Marks ν σ) (b : ν) (xs : List σ) : Prop where
  follows : ∀ c, L.Met b xs c → L.Follows b c
  resolved : L.Resolved b ↔ ∀ x ∈ xs, L.Fine b x
  ranked : ∀ x ∈ L.refs b, x ∈ xs ∨
    ∀ d, L.owner x = some d → d ≠ b → d ∈ D ∧ m.executable d < m.executable b
  met : ∀ c, L.Follows b c → L.Met b xs c ∨ c ∈ D
  nonneg : 0 ≤ m.executable b

section Left

variable {L : Links ν σ} {x : σ} {xs : List σ} {b c : ν} {D D' : Set ν} {m m' : Marks ν σ}

/-- A reference that is not followed, and is fine. -/
theorem Left.skip (h : Left L D m b (x :: xs)) (hx : L.Fine b x)
    (howner : ∀ d, L.owner x = some d → d = b) : Left L D m b xs where
  follows c hc := h.follows c (.tail hx hc)
  resolved := by
    rw [h.resolved, List.forall_mem_cons]
    exact and_iff_right hx
  ranked y hy := by
    rcases h.ranked y hy with hmem | hdone
    · rcases List.mem_cons.mp hmem with rfl | hmem
      · exact .inr fun d hd hne => absurd (howner d hd) hne
      · exact .inl hmem
    · exact .inr hdone
  met c hc := by
    rcases h.met c hc with hmet | hD
    · cases hmet with
      | head hx' hne => exact absurd (howner c hx') hne
      | tail _ hmet => exact .inl hmet
    · exact .inr hD
  nonneg := h.nonneg

/-- A reference that is followed to a bundle which turns out to be resolved. -/
theorem Left.follow (h : Left L D m b (x :: xs)) (hx : L.owner x = some c) (hres : L.Resolved c)
    (hsub : D ⊆ D') (hc : c ∈ D') (hsame : ∀ d ∈ D, m'.executable d = m.executable d)
    (hle : m.executable b ≤ m'.executable b) (hlt : m'.executable c < m'.executable b) :
    Left L D' m' b xs := by
  have hfine : L.Fine b x := by
    constructor
    · intro hnone
      rw [hx] at hnone
      cases hnone
    · intro d hd _
      rw [hx] at hd
      cases hd
      exact hres
  refine ⟨fun c hc => h.follows c (.tail hfine hc), ?_, ?_, ?_, h.nonneg.trans hle⟩
  · rw [h.resolved, List.forall_mem_cons]
    exact and_iff_right hfine
  · intro y hy
    rcases h.ranked y hy with hmem | hdone
    · rcases List.mem_cons.mp hmem with rfl | hmem
      · refine .inr ?_
        intro d hd _
        rw [hx] at hd
        cases hd
        exact ⟨hc, hlt⟩
      · exact .inl hmem
    · refine .inr ?_
      intro d hd hne
      obtain ⟨hdD, hdlt⟩ := hdone d hd hne
      rw [hsame d hdD]
      exact ⟨hsub hdD, hdlt.trans_le hle⟩
  · intro d hd
    rcases h.met d hd with hmet | hD
    · cases hmet with
      | head hx' _ =>
          rw [hx] at hx'
          cases hx'
          exact .inr hc
      | tail _ hmet => exact .inl hmet
    · exact .inr (hsub hD)

/-- All references are done. -/
theorem Left.nil (h : Left L D m b ([] : List σ)) : Searched L D m b where
  resolved _ := by
    refine ⟨h.nonneg, ?_⟩
    intro x hx d howner hd
    rcases h.ranked x hx with hmem | hdone
    · cases hmem
    · exact hdone d howner hd
  unresolved hres := absurd (h.resolved.mpr (List.forall_mem_nil _)) hres
  met _ c hc := by
    rcases h.met c hc with hmet | hD
    · cases hmet
    · exact hD

/-- A reference is not fine. -/
theorem Left.stop (h : Left L D m b (x :: xs)) (hx : ¬ L.Fine b x) (hsub : D ⊆ D')
    (hneg : m'.executable b < 0)
    (hc : m'.error = none → ∀ c, L.owner x = some c → c ≠ b → c ∈ D') : Searched L D' m' b where
  resolved hres := absurd (h.resolved.mp hres x List.mem_cons_self) hx
  unresolved _ := hneg
  met he c hfollows := by
    rcases h.met c hfollows with hmet | hD
    · cases hmet with
      | head hx' hne => exact hc he c hx' hne
      | tail hfine _ => exact absurd hfine hx
    · exact hsub hD

end Left

/-! ## One bundle -/

section Exec

variable [DecidableEq ν] {isdef : σ → Bool} {B : Bundles ν σ} {but : Option ν} {path : List ν}
  {D : Set ν} {m : Marks ν σ} {b : ν} {depth : ℕ}

/-- The references of a bundle that is done change nothing. -/
theorem execLoop_stable {exec : ν → Marks ν σ → Except Fault (Bool × Marks ν σ)}
    {snames : List σ} {saved : ℤ} (he : 0 ≤ m.executable b)
    (hgiven : ∀ x ∈ snames, B.symtable x = none → isdef x = true)
    (howned : ∀ x ∈ snames, ∀ d, B.symtable x = some d → d ≠ b →
      exec d m = .ok (false, m) ∧ 0 ≤ m.executable d ∧ m.executable d < m.executable b) :
    execLoop isdef B.symtable exec b snames saved m = .ok (saved, m) := by
  induction snames with
  | nil => rfl
  | cons x snames ih =>
      have hrest := ih (fun y hy => hgiven y (List.mem_cons_of_mem _ hy))
        fun y hy => howned y (List.mem_cons_of_mem _ hy)
      have href : execRef isdef B.symtable exec b x saved m = .ok (saved, m) := by
        unfold execRef
        cases howner : B.symtable x with
        | none => simp only [hgiven x List.mem_cons_self howner, if_true]
        | some d =>
            by_cases hd : d = b
            · simp only [hd, if_true]
            · obtain ⟨hexec, hnonneg, hlt⟩ := howned x List.mem_cons_self d howner hd
              have hraise : raise b d m = m := by
                rw [raise, if_neg (not_lt.mpr hnonneg), if_neg (not_le.mpr hlt)]
              simp only [hd, if_false, hexec, bind, Except.bind, hraise]
              rfl
      rw [execLoop, href]
      change (if m.executable b < 0 then _ else _) = _
      rw [if_neg (not_lt.mpr he)]
      exact hrest

/-- A resolved bundle that is done stays as it is. -/
theorem exec_stable (hclosed : Closed B) (hD : ∀ c ∈ D, (links isdef B but).Resolved c →
      0 ≤ m.executable c ∧ Ranked (links isdef B but) D m c)
    (hmarks : ∀ c ∈ B.chain, m.recurse c = true ↔ c ∈ path)
    (hpath : OnPath (links isdef B but) B.chain path depth b) (hb : b ∈ D)
    (hres : (links isdef B but).Resolved b) :
    nsbundleExec isdef B depth b m = .ok (false, m) := by
  induction depth generalizing path m b with
  | zero => exact absurd hpath.depth_pos (by decide)
  | succ depth ih =>
      obtain ⟨hnonneg, hranked⟩ := hD b hb hres
      have hnot := hpath.notMem hres
      have hrecurse : m.recurse b = false := by
        rw [← Bool.not_eq_true, hmarks b hpath.mem]
        exact hnot
      have hfine := (resolved_iff.mp hres).2
      have hloop : execLoop isdef B.symtable (nsbundleExec isdef B depth) b
          (B.symref b).reverse (m.executable b) (m.setRecurse b true) =
            .ok (m.executable b, m.setRecurse b true) := by
        apply execLoop_stable (m := m.setRecurse b true) hnonneg
        · intro x hx howner
          exact (hfine x hx).given howner
        · intro x hx d howner hd
          obtain ⟨hdD, hlt⟩ := hranked x hx d howner hd
          have hdres := (hfine x hx).owned d howner hd
          have hfollows := hres.follows hx howner hd
          refine ⟨?_, (hD d hdD hdres).1, hlt⟩
          exact ih (m := m.setRecurse b true) hD (fun c => recurse_cons hmarks)
            (hpath.cons hnot hfollows (hclosed x d howner)) hdD hdres
      have hrestore : (m.setRecurse b true).setRecurse b false = m := by
        simp only [Marks.setRecurse, Function.update_idem, ← hrecurse, Function.update_eq_self]
      rw [nsbundleExec, if_neg (by rw [hrecurse]; exact Bool.false_ne_true), if_pos hnonneg, hloop]
      change Except.ok (decide (((m.setRecurse b true).setRecurse b false).executable b ≠ _), _) = _
      rw [hrestore, decide_eq_false (not_not.mpr rfl)]

/-- What a search from `b` brings about: `b` is done, or it is on the path. -/
structure Outcome (isdef : σ → Bool) (B : Bundles ν σ) (but : Option ν) (path : List ν) (b : ν)
    (D : Set ν) (m : Marks ν σ) (D' : Set ν) (m' : Marks ν σ) : Prop where
  sound : Sound (links isdef B but) B.chain path D' m'
  frame : Extends (links isdef B but) path b D m D' m'
  done : b ∈ D' ∨ (b ∈ path ∧ m'.executable b < 0 ∧ m'.error ≠ none)

/-- What the loop over the references `snames` of `b` brings about. -/
def Loops (isdef : σ → Bool) (B : Bundles ν σ) (but : Option ν) (path : List ν)
    (exec : ν → Marks ν σ → Except Fault (Bool × Marks ν σ)) (b : ν) (D : Set ν) (m : Marks ν σ)
    (snames : List σ) (saved : ℤ) : Prop :=
  ∃ saved' m' D', execLoop isdef B.symtable exec b snames saved m = .ok (saved', m') ∧
    Sound (links isdef B but) B.chain (b :: path) D' m' ∧
    Extends (links isdef B but) path b D m D' m' ∧ Searched (links isdef B but) D' m' b

section Loops

variable {exec : ν → Marks ν σ → Except Fault (Bool × Marks ν σ)} {x : σ} {snames : List σ}
  {saved saved' : ℤ} {m' : Marks ν σ} {D' : Set ν}

/-- The loop goes on. -/
theorem Loops.go (href : execRef isdef B.symtable exec b x saved m = .ok (saved', m'))
    (hframe : Extends (links isdef B but) path b D m D' m') (hnonneg : 0 ≤ m'.executable b)
    (h : Loops isdef B but path exec b D' m' snames saved') :
    Loops isdef B but path exec b D m (x :: snames) saved := by
  obtain ⟨saved'', m'', D'', hloop, hsound, hframe', hsearched⟩ := h
  refine ⟨saved'', m'', D'', ?_, hsound, hframe.trans hframe', hsearched⟩
  rw [execLoop, href]
  change (if m'.executable b < 0 then _ else _) = _
  rw [if_neg (not_lt.mpr hnonneg)]
  exact hloop

/-- The loop ends, where the reference is not fine. -/
theorem Loops.stop (href : execRef isdef B.symtable exec b x saved m = .ok (saved', m'))
    (hsound : Sound (links isdef B but) B.chain (b :: path) D' m')
    (hframe : Extends (links isdef B but) path b D m D' m') (hneg : m'.executable b < 0)
    (hsearched : Searched (links isdef B but) D' m' b) :
    Loops isdef B but path exec b D m (x :: snames) saved := by
  refine ⟨saved', m', D', ?_, hsound, hframe, hsearched⟩
  rw [execLoop, href]
  change (if m'.executable b < 0 then _ else _) = _
  rw [if_pos hneg]
  rfl

/-- The loop over the references of `b`, which is on the path. -/
theorem execLoop_ok
    (hpath : List.IsChain (fun c b => (links isdef B but).Follows b c) (b :: path)) (hb : b ∉ path)
    (hexec : ∀ c, (links isdef B but).Follows b c → ∀ (D : Set ν) (m : Marks ν σ),
      Sound (links isdef B but) B.chain (b :: path) D m →
        ∃ changed m' D', exec c m = .ok (changed, m') ∧
          Outcome isdef B but (b :: path) c D m D' m')
    (hleft : Left (links isdef B but) D m b snames)
    (hsound : Sound (links isdef B but) B.chain (b :: path) D m) :
    Loops isdef B but path exec b D m snames saved := by
  induction snames generalizing saved m D with
  | nil => exact ⟨saved, m, D, rfl, hsound, .refl, hleft.nil⟩
  | cons x snames ih =>
      have hbD : b ∉ D := hsound.apart b List.mem_cons_self
      cases howner : B.symtable x with
      | none =>
          have hnone : ∀ d, (links isdef B but).owner x = some d → d = b := by
            intro d hd
            cases howner.symm.trans hd
          by_cases hgiven : isdef x = true
          · have href : execRef isdef B.symtable exec b x saved m = .ok (saved, m) := by
              simp only [execRef, howner, hgiven, if_true]
            have hskip := hleft.skip
              ⟨fun _ => hgiven, fun d hd hne => absurd (hnone d hd) hne⟩ hnone
            exact .go href .refl hskip.nonneg (ih hskip hsound)
          · have href : execRef isdef B.symtable exec b x saved m =
                .ok (saved, m.setExecutable b (-1)) := by
              simp [execRef, howner, hgiven]
            have hneg : (m.setExecutable b (-1)).executable b < 0 := by simp
            refine .stop href (hsound.setExecutable List.mem_cons_self) (.setExecutable hbD hb)
              hneg (hleft.stop ?_ subset_rfl hneg ?_)
            · exact fun hfine => hgiven (hfine.given howner)
            · intro _ d hd hne
              exact absurd (hnone d hd) hne
      | some c =>
          by_cases hcb : c = b
          · subst hcb
            have hown : ∀ d, (links isdef B but).owner x = some d → d = c := by
              intro d hd
              exact Option.some.inj (hd.symm.trans howner)
            have href : execRef isdef B.symtable exec c x saved m = .ok (saved, m) := by
              simp only [execRef, howner, if_true]
            have hfine : (links isdef B but).Fine c x := by
              refine ⟨?_, fun d hd hne => absurd (hown d hd) hne⟩
              intro hnone
              cases howner.symm.trans hnone
            have hskip := hleft.skip hfine hown
            exact .go href .refl hskip.nonneg (ih hskip hsound)
          · have hfollows := hleft.follows c (.head howner hcb)
            have hleads : List.IsChain (fun c b => (links isdef B but).Follows b c)
                (c :: b :: path) := List.isChain_cons_cons.mpr ⟨hfollows, hpath⟩
            obtain ⟨changed, m2, D2, hcall, hout⟩ := hexec c hfollows D m hsound
            have hframe := hout.frame.up hfollows
            have hbD2 : b ∉ D2 := hout.sound.apart b List.mem_cons_self
            have href : execRef isdef B.symtable exec b x saved m =
                .ok (if changed then -2 else saved, raise b c m2) := by
              simp only [execRef, howner, hcb, if_false, hcall, bind, Except.bind]
              rfl
            by_cases hres : (links isdef B but).Resolved c
            · -- the bundle is executable, and does not lead back to this one
              have hcD : c ∈ D2 := by
                refine hout.done.resolve_right ?_
                intro hback
                exact hres.not_transGen (transGen_of_isChain hleads hback.1)
              have hsame : m2.executable b = m.executable b := by
                refine (hout.frame.onPath b List.mem_cons_self).resolve_right ?_
                intro hback
                exact hres.not_transGen (.tail' hback.2 hfollows)
              have hnonneg := (hout.sound.resolved c hcD hres).1
              by_cases hle : m2.executable b ≤ m2.executable c
              · have hraise : raise b c m2 = m2.setExecutable b (1 + m2.executable c) := by
                  rw [raise, if_neg (not_lt.mpr hnonneg), if_pos hle]
                rw [hraise] at href
                have hleft' : Left (links isdef B but) D2
                    (m2.setExecutable b (1 + m2.executable c)) b snames := by
                  refine hleft.follow howner hres hframe.sub hcD ?_ ?_ ?_
                  · intro d hd
                    have hdb : d ≠ b := by
                      rintro rfl
                      exact hbD hd
                    rw [setExecutable_of_ne hdb]
                    exact hframe.same d hd
                  · rw [setExecutable_self]
                    omega
                  · rw [setExecutable_self, setExecutable_of_ne hcb]
                    omega
                exact .go href (hframe.trans (.setExecutable hbD2 hb)) hleft'.nonneg
                  (ih hleft' (hout.sound.setExecutable List.mem_cons_self))
              · have hraise : raise b c m2 = m2 := by
                  rw [raise, if_neg (not_lt.mpr hnonneg), if_neg hle]
                rw [hraise] at href
                have hleft' := hleft.follow howner hres hframe.sub hcD hframe.same hsame.ge
                  (not_le.mp hle)
                exact .go href hframe hleft'.nonneg (ih hleft' hout.sound)
            · -- the bundle is not executable
              have hneg : m2.executable c < 0 := by
                rcases hout.done with hcD | hback
                · exact hout.sound.unresolved c hcD hres
                · exact hback.2.1
              have hraise : raise b c m2 = m2.setExecutable b (m2.executable c) := by
                rw [raise, if_pos hneg]
              rw [hraise] at href
              have hlow : (m2.setExecutable b (m2.executable c)).executable b < 0 := by
                rw [setExecutable_self]
                exact hneg
              refine .stop href (hout.sound.setExecutable List.mem_cons_self)
                (hframe.trans (.setExecutable hbD2 hb)) hlow (hleft.stop ?_ hframe.sub hlow ?_)
              · intro hfine
                exact hres (hfine.owned c howner hcb)
              · intro he d hd _
                cases howner.symm.trans hd
                refine hout.done.resolve_right ?_
                intro hback
                exact hback.2.2 he

end Loops

/-- The search has come back to a bundle of its path. -/
theorem exec_back (hpath : OnPath (links isdef B but) B.chain path (depth + 1) b)
    (hsound : Sound (links isdef B but) B.chain path D m) (hmem : b ∈ path) :
    ∃ m', nsbundleExec isdef B (depth + 1) b m = .ok (decide ((-1 : ℤ) ≠ m.executable b), m') ∧
      Outcome isdef B but path b D m D m' := by
  have hcyclic : (links isdef B but).Cyclic := ⟨b, transGen_of_isChain hpath.leads hmem⟩
  have hrec : m.recurse b = true := (hsound.onPath b hpath.mem).mpr hmem
  have hset := hsound.setExecutable (e := -1) hmem
  refine ⟨{ m.setExecutable b (-1) with error := some .circular }, ?_, ?_, ?_, ?_⟩
  · rw [nsbundleExec, if_pos hrec]
  · refine ⟨hset.onPath, hset.off, hset.fresh, hset.resolved, hset.unresolved, hset.apart,
      fun _ => ⟨rfl, hcyclic⟩, ?_⟩
    intro he
    cases he
  · refine ⟨subset_rfl, ?_, ?_, ?_⟩
    · intro c hc
      have hcb : c ≠ b := by
        rintro rfl
        exact hsound.apart c hmem hc
      exact setExecutable_of_ne hcb
    · intro c _
      by_cases hcb : c = b
      · subst hcb
        exact .inr ⟨by simp, .refl⟩
      · exact .inl (setExecutable_of_ne hcb)
    · intro he
      cases he
  · refine .inr ⟨hmem, by simp, ?_⟩
    intro he
    cases he

/-- **One search**: it ends, and the bundle is done unless it is on the path. -/
theorem exec_ok (hclosed : Closed B)
    (hpath : OnPath (links isdef B but) B.chain path depth b)
    (hsound : Sound (links isdef B but) B.chain path D m) :
    ∃ changed m' D', nsbundleExec isdef B depth b m = .ok (changed, m') ∧
      Outcome isdef B but path b D m D' m' := by
  induction depth generalizing path m b D with
  | zero => exact absurd hpath.depth_pos (by decide)
  | succ depth ih =>
      by_cases hmem : b ∈ path
      · obtain ⟨m', hexec, hout⟩ := exec_back hpath hsound hmem
        exact ⟨_, m', D, hexec, hout⟩
      · have hrec : ¬ m.recurse b = true := fun h => hmem ((hsound.onPath b hpath.mem).mp h)
        by_cases hD : b ∈ D
        · -- the bundle is done
          refine ⟨false, m, D, ?_, hsound, .refl, .inl hD⟩
          by_cases hres : (links isdef B but).Resolved b
          · exact exec_stable hclosed hsound.resolved hsound.onPath hpath hD hres
          · rw [nsbundleExec, if_neg hrec, if_neg (not_le.mpr (hsound.unresolved b hD hres))]
        · have hfresh := hsound.fresh b hpath.mem hD hmem
          have hleft : Left (links isdef B but) D (m.setRecurse b true) b
              ((links isdef B but).refs b) := by
            have hoff : ¬ (links isdef B but).off b := fun h => hD (hsound.off b h)
            refine ⟨fun c hc => ⟨hoff, hc⟩, ?_, fun x hx => .inl hx, fun c hc => .inl hc.2, ?_⟩
            · rw [resolved_iff]
              exact and_iff_right hoff
            · exact hfresh.ge
          have hloops : Loops isdef B but path (nsbundleExec isdef B depth) b D
              (m.setRecurse b true) (B.symref b).reverse (m.executable b) := by
            refine execLoop_ok hpath.leads hmem ?_ hleft (hsound.enter hD)
            intro c hc D m hsound
            obtain ⟨x, _, hx, _⟩ := hc.2.owned
            exact ih (hpath.cons hmem hc (hclosed x c hx)) hsound
          obtain ⟨saved, m', D', hloop, hsound', hframe, hsearched⟩ := hloops
          refine ⟨decide ((m'.setRecurse b false).executable b ≠ saved), m'.setRecurse b false,
            insert b D', ?_, hsound'.leave hsearched hmem, ?_, .inl (.inl rfl)⟩
          · change execLoop isdef B.symtable (nsbundleExec isdef B depth) b (B.symref b).reverse
              (m.executable b) (m.setRecurse b true) = _ at hloop
            rw [nsbundleExec, if_neg hrec, if_pos hfresh.ge, hloop]
            rfl
          · exact ⟨fun c hc => .inr (hframe.sub hc), hframe.same, hframe.onPath, hframe.error⟩

end Exec

/-! ## All bundles -/

section All

variable {isdef : σ → Bool} {B : Bundles ν σ} {but : Option ν} {D : Set ν} {m : Marks ν σ}

theorem onPath_nil {b : ν} (hb : b ∈ B.chain) :
    OnPath (links isdef B but) B.chain [] (depthOf B) b where
  leads := .singleton b
  nodup := List.nodup_nil
  inChain := List.forall_mem_nil _
  mem := hb
  depth := le_rfl

variable [DecidableEq ν]

/-- The first round: all bundles are done. -/
theorem execRound_ok (hclosed : Closed B) {bundles : List ν} (hbundles : ∀ b ∈ bundles, b ∈ B.chain)
    (hsound : Sound (links isdef B but) B.chain [] D m) :
    ∃ again m' D', execRound isdef B (depthOf B) bundles m = .ok (again, m') ∧
      Sound (links isdef B but) B.chain [] D' m' ∧ D ⊆ D' ∧ ∀ b ∈ bundles, b ∈ D' := by
  induction bundles generalizing m D with
  | nil => exact ⟨false, m, D, rfl, hsound, subset_rfl, List.forall_mem_nil _⟩
  | cons b bundles ih =>
      obtain ⟨hb, hbundles⟩ := List.forall_mem_cons.mp hbundles
      obtain ⟨changed, m1, D1, hexec, hout⟩ := exec_ok hclosed (onPath_nil hb) hsound
      obtain ⟨again, m2, D2, hround, hsound2, hsub, hall⟩ := ih hbundles hout.sound
      refine ⟨changed || again, m2, D2, ?_, hsound2, hout.frame.sub.trans hsub, ?_⟩
      · rw [execRound, hexec]
        simp only [bind, Except.bind, hround]
        rfl
      · refine List.forall_mem_cons.mpr ⟨hsub ?_, hall⟩
        exact hout.done.resolve_right fun hback => absurd hback.1 List.not_mem_nil

/-- A round over bundles that are done. -/
theorem execRound_stable (hclosed : Closed B) {bundles : List ν}
    (hbundles : ∀ b ∈ bundles, b ∈ B.chain) (hdone : ∀ b ∈ bundles, b ∈ D)
    (hsound : Sound (links isdef B but) B.chain [] D m) :
    execRound isdef B (depthOf B) bundles m = .ok (false, m) := by
  induction bundles with
  | nil => rfl
  | cons b bundles ih =>
      obtain ⟨hb, hbundles⟩ := List.forall_mem_cons.mp hbundles
      obtain ⟨hbD, hdone⟩ := List.forall_mem_cons.mp hdone
      have hexec : nsbundleExec isdef B (depthOf B) b m = .ok (false, m) := by
        by_cases hres : (links isdef B but).Resolved b
        · exact exec_stable hclosed hsound.resolved hsound.onPath (onPath_nil hb) hbD hres
        · have hrec : ¬ m.recurse b = true := by
            rw [hsound.onPath b hb]
            exact List.not_mem_nil
          change nsbundleExec isdef B (B.chain.length + 1 + 1) b m = _
          rw [nsbundleExec, if_neg hrec, if_neg (not_le.mpr (hsound.unresolved b hbD hres))]
      rw [execRound, hexec]
      simp only [bind, Except.bind, ih hbundles hdone]
      rfl

/-- The state in which the search begins. -/
theorem sound_clearMarks (hbut : ∀ b, but = some b → b ∈ B.chain) :
    Sound (links isdef B but) B.chain [] {b | some b = but} (clearMarks B but m) := by
  refine ⟨?_, fun c hc => hc, ?_, ?_, ?_, ?_, ?_, ?_⟩
  · intro c hc
    simp [clearMarks, hc]
  · intro c hc hD _
    have hne : ¬ some c = but := hD
    simp [clearMarks, hc, hne]
  · intro c hc hres
    exact absurd hc (resolved_iff.mp hres).1
  · intro c hc _
    have hchain := hbut c hc.symm
    have heq : some c = but := hc
    simp [clearMarks, hchain, heq]
  · intro c hc
    exact absurd hc List.not_mem_nil
  · intro he
    exact absurd rfl he
  · intro _ c hc
    constructor
    intro d hd
    exact absurd hc hd.1

/-- What `nsbundle_exec_all_but` finds out. -/
structure Executables (isdef : σ → Bool) (B : Bundles ν σ) (but : Option ν) (m : Marks ν σ) :
    Prop where
  executable : ∀ b ∈ B.chain, 0 ≤ m.executable b ↔ (links isdef B but).Resolved b
  error : m.error.isSome = true ↔ (links isdef B but).Cyclic

/-- **The search ends**, and finds out what is executable, and whether there are
circular dependencies. -/
theorem execAllBut_ok (hclosed : Closed B) (hbut : ∀ b, but = some b → b ∈ B.chain) :
    ∃ m', execAllBut isdef B but m = .ok m' ∧ Executables isdef B but m' := by
  obtain ⟨again, m1, D, hround, hsound, _, hall⟩ := execRound_ok hclosed (fun b hb => hb)
    (sound_clearMarks hbut : Sound (links isdef B but) B.chain [] _ (clearMarks B but m))
  have hexecutables : Executables isdef B but m1 := by
    constructor
    · intro b hb
      constructor
      · intro hnonneg
        by_contra hres
        exact not_lt.mpr hnonneg (hsound.unresolved b (hall b hb) hres)
      · intro hres
        exact (hsound.resolved b (hall b hb) hres).1
    · constructor
      · intro he
        exact (hsound.error fun hnone => by rw [hnone] at he; cases he).2
      · rintro ⟨b, hb⟩
        by_contra he
        have hnone : m1.error = none := by
          cases h : m1.error with
          | none => rfl
          | some _ => rw [h] at he; exact absurd rfl he
        -- a bundle that is followed belongs to the chain
        have hchain : b ∈ B.chain := by
          obtain ⟨c, _, hc⟩ := Relation.TransGen.tail'_iff.mp hb
          obtain ⟨x, _, hx, _⟩ := hc.2.owned
          exact hclosed x b hx
        exact not_transGen_of_acc (hsound.acc hnone b (hall b hchain)) hb
  refine ⟨m1, ?_, hexecutables⟩
  have hstable : execRounds isdef B (depthOf B) 1 m1 = .ok m1 := by
    rw [execRounds, execRound_stable hclosed (fun b hb => hb) hall hsound]
    rfl
  rw [execAllBut, maxRounds, execRounds, hround]
  cases again with
  | false => rfl
  | true => exact hstable

end All

end Lush.Modules
