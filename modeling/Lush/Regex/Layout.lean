import Lush.Regex.Compile

/-!
# The compiler and its buffer

The four functions of the grammar check for place before they write, except for
the sets: there the test `ans->end>buf.beg+18` never holds.  So the compiler stays
inside of its buffer as long as no set stands over the end of it, and this can be
seen from the layout of the pattern.
-/

namespace Lush.Regex

open Text Plan

/-- The compiler has ended, with a program or with one of its messages. -/
def Inside {α : Type} (r : Except Fault α) : Prop :=
  (∃ a, r = .ok a) ∨ ∃ n, r = .error (.error (err n))

/-- No set that the compiler comes to stands over the end of the buffer: after the
first piece for which there is no place, it comes to nothing. -/
def Fits (len bufEnd : ℕ) : List Demand → Prop
  | [] => True
  | .room p :: demands => p + 4 ≤ bufEnd → Fits len bufEnd demands
  | .set p :: demands => p + 16 ≤ len ∧ Fits len bufEnd demands

/-- What comes of a demand that is not met. -/
def unmet (len bufEnd : ℕ) : Demand → Option Fault
  | .room p => if p + 4 > bufEnd then some (.error (err ⟨0, by decide⟩)) else none
  | .set p => if p + 16 ≤ len then none else some .undefined

theorem unmet_cases {len bufEnd : ℕ} {demand : Demand} {f : Fault}
    (h : unmet len bufEnd demand = some f) : f = .undefined ∨ f = .error (err 0) := by
  cases demand with
  | room p =>
      rw [unmet] at h
      split_ifs at h
      exact .inr (Option.some.inj h).symm
  | set p =>
      rw [unmet] at h
      split_ifs at h
      exact .inl (Option.some.inj h).symm

theorem fits_iff {len bufEnd : ℕ} {demands : List Demand} :
    Fits len bufEnd demands ↔ demands.findSome? (unmet len bufEnd) ≠ some .undefined := by
  induction demands with
  | nil => simp [Fits]
  | cons demand demands ih =>
      cases demand with
      | room p =>
          by_cases hp : p + 4 ≤ bufEnd
          · have hgt : ¬ p + 4 > bufEnd := Nat.not_lt.mpr hp
            simp [Fits, unmet, hp, hgt, ih]
          · simp [Fits, unmet, hp, Nat.lt_of_not_le hp]
      | set p =>
          by_cases hp : p + 16 ≤ len
          · simp [Fits, unmet, hp, ih]
          · simp [Fits, unmet, hp]

/-- The faults of the compiler that come from the pattern. -/
def Message (f : Fault) : Prop := ∃ n, f = .error (err n)

section Operations

variable {len bufEnd : ℕ} {α : Type} {Q : α → Prop}

/-- `x` on the buffer does what the layout says. -/
abbrev Follows (len bufEnd : ℕ) (Q : α → Prop) (x : StateT Memory (Except Fault) α)
    (p : Plan Demand Fault α) : Prop :=
  Agrees (unmet len bufEnd) Message Q x p

theorem follows_lift {x : Except Fault α} (hok : ∀ a, x = .ok a → Q a)
    (hfails : ∀ f, x = .error f → Message f) :
    Follows len bufEnd Q ((memory len bufEnd).lift x) (layout.lift x) where
  run _ := by cases x <;> rfl
  ok := hok
  fails f h := .inr (hfails f h)

theorem follows_serror (n : Fin 5) :
    Follows len bufEnd Q ((memory len bufEnd).serror n) (layout.serror n) := by
  refine follows_lift ?_ ?_
  · intro a h
    cases h
  · intro f h
    cases h
    exact ⟨n, rfl⟩

theorem follows_room (p : ℕ) :
    Follows len bufEnd (fun _ => p + 4 ≤ bufEnd) ((memory len bufEnd).room p) (layout.room p) := by
  by_cases hp : p + 4 > bufEnd
  · have hunmet : (layout.room p).demands.findSome? (unmet len bufEnd) = some (.error (err 0)) := by
      simp [layout, unmet, hp]
    have hanswer : answer (unmet len bufEnd) (layout.room p) = .error (.error (err 0)) := by
      rw [answer, hunmet]
    refine ⟨?_, ?_, ?_⟩
    · intro s
      rw [hanswer]
      simp [memory, hp]
    · intro a h
      rw [hanswer] at h
      cases h
    · intro f h
      rw [hanswer] at h
      cases h
      exact .inl hunmet
  · have hanswer : answer (unmet len bufEnd) (layout.room p) = .ok () := by
      simp [answer, layout, unmet, hp]
    refine ⟨?_, ?_, ?_⟩
    · intro s
      rw [hanswer]
      simp [memory, hp]
    · intro _ _
      exact Nat.not_lt.mp hp
    · intro f h
      rw [hanswer] at h
      cases h

/-- What takes a buffer to a buffer demands nothing. -/
theorem follows_pure {x : StateT Memory (Except Fault) Unit} (hx : ∀ s, ∃ s', x s = .ok ((), s')) :
    Follows len bufEnd (fun _ => True) x (pure ()) where
  run s := by
    obtain ⟨s', hs'⟩ := hx s
    rw [hs']
    rfl
  ok _ _ := trivial
  fails f h := by cases h

theorem store_ok {i : ℕ} (hi : i < len) (w : UInt16) (s : Memory) :
    store len i w s = .ok ((), Function.update s i w) :=
  if_pos hi

theorem follows_put {p : ℕ} (hp : p < len) (w : UInt16) :
    Follows len bufEnd (fun _ => True) ((memory len bufEnd).put p w) (layout.put p w) :=
  follows_pure fun s => ⟨_, store_ok hp w s⟩

theorem copyLoop_ok {n i stop : ℕ} (hi : n = 0 ∨ i + n ≤ len) (hstop : stop + n ≤ len)
    (s : Memory) : ∃ s', copyLoop len n i stop s = .ok ((), s') := by
  induction n generalizing i stop s with
  | zero => exact ⟨s, rfl⟩
  | succ n ih =>
      have hload : load len i s = .ok (s i, s) := if_pos (by omega)
      obtain ⟨s', hs'⟩ : ∃ s', copyLoop len n (i + 1) (stop + 1) (Function.update s stop (s i)) =
          .ok ((), s') := ih (by omega) (by omega) _
      refine ⟨s', ?_⟩
      calc copyLoop len (n + 1) i stop s
        _ = (load len i >>= fun w => store len stop w >>= fun _ =>
              copyLoop len n (i + 1) (stop + 1)) s := rfl
        _ = copyLoop len n (i + 1) (stop + 1) (Function.update s stop (s i)) := by
              simp only [Bind.bind, StateT.bind, hload,
                store_ok (show stop < len by omega), Except.bind]
        _ = .ok ((), s') := hs'

theorem follows_copy {b : Bounds} {stop : ℕ} (hb : b.stop ≤ len)
    (hstop : stop + (b.stop - b.beg) ≤ len) :
    Follows len bufEnd (fun _ => True) ((memory len bufEnd).copy b stop) (layout.copy b stop) :=
  follows_pure fun s => copyLoop_ok (by omega) hstop s

/-- The words of a set are written one after the other. -/
theorem setLoop_eq (len set : ℕ) (cset : Charset) (n i : ℕ) (s : Memory) :
    (set + i + n ≤ len → ∃ s', setLoop len set cset n i s = .ok ((), s')) ∧
      (set + i + n > len → 0 < n → setLoop len set cset n i s = .error .undefined) := by
  induction n generalizing i s with
  | zero => exact ⟨fun _ => ⟨s, rfl⟩, fun _ h => absurd h (lt_irrefl 0)⟩
  | succ n ih =>
      have hstep : setLoop len set cset (n + 1) i s =
          (store len (set + i) (cset i) >>= fun _ => setLoop len set cset n (i + 1)) s := rfl
      by_cases hi : set + i < len
      · rw [hstep]
        simp only [Bind.bind, StateT.bind, store_ok hi, Except.bind]
        obtain ⟨hok, hover⟩ := ih (i + 1) (Function.update s (set + i) (cset i))
        exact ⟨fun h => hok (by omega), fun h _ => hover (by omega) (by omega)⟩
      · have hstore : store len (set + i) (cset i) s = .error .undefined := if_neg hi
        rw [hstep]
        simp only [Bind.bind, StateT.bind, hstore, Except.bind]
        exact ⟨fun h => absurd h (by omega), fun _ _ => trivial⟩

theorem follows_putSet (set : ℕ) (cset : Charset) :
    Follows len bufEnd (fun _ => set + 16 ≤ len) ((memory len bufEnd).putSet set cset)
      (layout.putSet set cset) := by
  have hloop := setLoop_eq len set cset 16 0
  by_cases hset : set + 16 ≤ len
  · have hanswer : answer (unmet len bufEnd) (layout.putSet set cset) = .ok () := by
      simp [answer, layout, unmet, hset]
    refine ⟨?_, fun _ _ => hset, ?_⟩
    · intro s
      obtain ⟨s', hs'⟩ := (hloop s).1 hset
      rw [hanswer]
      change Prod.fst <$> setLoop len set cset 16 0 s = _
      rw [hs']
      rfl
    · intro f h
      rw [hanswer] at h
      cases h
  · have hunmet : (layout.putSet set cset).demands.findSome? (unmet len bufEnd) =
        some .undefined := by
      simp [layout, unmet, hset]
    have hanswer : answer (unmet len bufEnd) (layout.putSet set cset) = .error .undefined := by
      rw [answer, hunmet]
    refine ⟨?_, ?_, ?_⟩
    · intro s
      rw [hanswer]
      change Prod.fst <$> setLoop len set cset 16 0 s = _
      rw [(hloop s).2 (by omega) (by decide)]
      rfl
    · intro a h
      rw [hanswer] at h
      cases h
    · intro f h
      rw [hanswer] at h
      cases h
      exact .inl hunmet

end Operations

/-! ## The sets -/

/-- The set ends with its bracket, or the bracket is missing. -/
def Bracketed (n : ℕ) (r : Except Fault (Charset × List UInt8)) : Prop :=
  (∃ p, r = .ok p ∧ p.2.length ≤ n) ∨ r = .error (.error (err ⟨2, by decide⟩))

theorem Bracketed.mono {n n' : ℕ} {r : Except Fault (Charset × List UInt8)}
    (h : Bracketed n r) (hn : n ≤ n') : Bracketed n' r :=
  h.imp_left fun ⟨p, hr, hp⟩ => ⟨p, hr, hp.trans hn⟩

theorem charsetLoop_bracketed (pat : List UInt8) (last : ℤ) (set : Charset) :
    Bracketed pat.length (charsetLoop pat last set) := by
  induction pat, last, set using charsetLoop.induct with
  | case1 last set => exact .inr rfl
  | case2 last set pat =>
      unfold charsetLoop
      rw [if_pos rfl]
      exact .inl ⟨_, rfl, Nat.le_succ _⟩
  | case3 c last set hc ih =>
      unfold charsetLoop
      rw [if_neg hc]
      exact ih.mono (Nat.le_succ _)
  | case4 c last set hc hi pat hrange ih =>
      unfold charsetLoop
      rw [if_neg hc]
      change Bracketed _ (if _ then _ else _)
      rw [if_pos hrange]
      exact ih.mono ((Nat.le_succ _).trans (Nat.le_succ _))
  | case5 c last set hc hi pat hrange ih =>
      unfold charsetLoop
      rw [if_neg hc]
      change Bracketed _ (if _ then _ else _)
      rw [if_neg hrange]
      exact ih.mono (Nat.le_succ _)

theorem charsetFirst_bracketed (pat : List UInt8) :
    Bracketed pat.length (charsetFirst pat) := by
  unfold charsetFirst
  split
  · exact (charsetLoop_bracketed _ _ _).mono (by rw [List.length_tail]; omega)
  · exact charsetLoop_bracketed _ _ _

theorem charset_bracketed (pat : List UInt8) : Bracketed pat.length (charset pat) := by
  unfold charset
  split
  · rcases charsetFirst_bracketed pat.tail with ⟨p, hp, hle⟩ | herr
    · rw [hp]
      rw [List.length_tail] at hle
      exact .inl ⟨_, rfl, hle.trans (Nat.sub_le _ _)⟩
    · rw [herr]
      exact .inr rfl
  · exact charsetFirst_bracketed pat

theorem lastWord_le (set : Charset) (n : ℕ) : lastWord set n ≤ n := by
  induction n with
  | zero => exact le_rfl
  | succ n ih =>
      rw [lastWord]
      split
      · exact ih.trans (Nat.le_succ n)
      · exact le_rfl

/-! ## The pieces -/

section Pieces

variable {len bufEnd : ℕ} {n beg stop rnum : ℕ} {pat : List UInt8}

/-- A piece inside of the buffer, after which less than `n` characters are left. -/
def Written (len n : ℕ) (b : Piece) : Prop :=
  b.bounds.stop ≤ len ∧ b.pat.length < n

/-- A piece after which there is place left. -/
def Placed (bufEnd n : ℕ) (b : Piece) : Prop :=
  b.bounds.stop + 4 ≤ bufEnd ∧ b.pat.length < n

theorem Placed.written {b : Piece} (h : Placed bufEnd n b) (hlen : bufEnd ≤ len) :
    Written len n b :=
  ⟨(Nat.le_add_right _ 4).trans (h.1.trans hlen), h.2⟩

variable (hlen : bufEnd ≤ len)
include hlen

theorem follows_concatc (c : ℤ) :
    Follows len bufEnd (fun stop' => stop' = stop + 1 ∧ stop + 4 ≤ bufEnd)
      (concatc (memory len bufEnd) stop c) (concatc layout stop c) :=
  (follows_room stop).bind fun _ hroom =>
    (follows_put (by omega) _).bind fun _ _ => .pure ⟨rfl, hroom⟩

theorem follows_concatb {b : Bounds} (hb : b.stop ≤ len) :
    Follows len bufEnd (fun stop' => stop' + 4 ≤ bufEnd)
      (concatb (memory len bufEnd) stop b) (concatb layout stop b) := by
  refine (follows_room _).bind ?_
  intro _ hroom
  refine .ite ?_ ?_
  · intro hbeg
    apply Agrees.pure
    omega
  · intro _
    exact (follows_copy hb (by omega)).bind fun _ _ => .pure hroom

theorem follows_instruction (c : ℤ) (hpat : pat.length < n) :
    Follows len bufEnd (Written len n)
      (instruction (memory len bufEnd) beg c pat rnum) (instruction layout beg c pat rnum) := by
  refine (follows_concatc hlen c).bind ?_
  intro stop hstop
  apply Agrees.pure
  exact ⟨by simp only; omega, hpat⟩

theorem follows_regexRange (hpat : pat.length < n) :
    Follows len bufEnd (Written len n)
      (regexRange (memory len bufEnd) beg pat rnum) (regexRange layout beg pat rnum) := by
  refine .ite (fun _ => follows_serror 0) ?_
  intro _
  refine (follows_putSet _ _).bind ?_
  intro _ hset
  refine (follows_lift (Q := fun r => r.2.length < n) ?_ ?_).bind ?_
  · intro r hr
    rcases charset_bracketed pat with ⟨r', hr', hle⟩ | herr
    · cases hr.symm.trans hr'
      exact hle.trans_lt hpat
    · cases hr.symm.trans herr
  · intro f hf
    rcases charset_bracketed pat with ⟨r', hr', hle⟩ | herr
    · cases hf.symm.trans hr'
    · cases hf.symm.trans herr
      exact ⟨2, rfl⟩
  · intro r hr
    refine (follows_putSet _ _).bind ?_
    intro _ _
    refine (follows_concatc hlen _).bind ?_
    intro stop hstop
    apply Agrees.pure
    have hlast := lastWord_le r.1 15
    exact ⟨by simp only; omega, hr⟩

theorem follows_regexClose (last : ℕ) {tmp : Piece} (htmp : Placed bufEnd n tmp) :
    Follows len bufEnd (Written len n)
      (regexClose (memory len bufEnd) beg last tmp) (regexClose layout beg last tmp) := by
  refine (follows_concatb hlen (htmp.written hlen).1).bind ?_
  intro stop hstop
  refine .ite ?_ (fun _ => follows_serror 1)
  intro _
  refine (follows_concatc hlen _).bind ?_
  intro stop' hstop'
  apply Agrees.pure
  refine ⟨by simp only; omega, ?_⟩
  rw [List.length_tail]
  exact (Nat.sub_le _ _).trans_lt htmp.2

theorem follows_regexRepeat {b : Piece} (hb : Written len n b) :
    Follows len bufEnd (Written len n)
      (regexRepeat (memory len bufEnd) beg b) (regexRepeat layout beg b) := by
  have htail : b.pat.tail.length < n := by
    rw [List.length_tail]
    exact (Nat.sub_le _ _).trans_lt hb.2
  refine .ite ?_ fun _ => .ite ?_ fun _ => .ite ?_ ?_
  · -- `?`
    intro _
    refine (follows_concatc hlen _).bind ?_
    intro _ _
    refine (follows_concatb hlen hb.1).bind ?_
    intro _ hstop
    exact .pure ⟨by simp only; omega, htail⟩
  · -- `+`
    intro _
    refine (follows_concatb hlen hb.1).bind ?_
    intro _ _
    refine (follows_concatc hlen _).bind ?_
    intro _ _
    refine (follows_concatc hlen _).bind ?_
    intro _ hstop
    exact .pure ⟨by simp only; omega, htail⟩
  · -- `*`
    intro _
    refine (follows_concatc hlen _).bind ?_
    intro _ _
    refine (follows_concatb hlen hb.1).bind ?_
    intro _ _
    refine (follows_concatc hlen _).bind ?_
    intro _ hstop
    exact .pure ⟨by simp only; omega, htail⟩
  · intro _
    refine (follows_concatb hlen hb.1).bind ?_
    intro _ hstop
    exact .pure ⟨by simp only; omega, hb.2⟩

theorem follows_regexBranch {b1 b2 : Piece} (hb1 : Placed bufEnd n b1) (hb2 : Placed bufEnd n b2) :
    Follows len bufEnd (Placed bufEnd n)
      (regexBranch (memory len bufEnd) beg b1 b2) (regexBranch layout beg b1 b2) := by
  refine (follows_concatc hlen _).bind ?_
  intro _ _
  refine (follows_concatb hlen (hb1.written hlen).1).bind ?_
  intro _ _
  refine (follows_concatc hlen _).bind ?_
  intro _ _
  refine (follows_concatb hlen (hb2.written hlen).1).bind ?_
  intro _ hstop
  exact .pure ⟨hstop, hb2.2⟩

/-- What each of the four functions does at depth `depth`: more than enough of it
is left, as every piece takes at least one character. -/
structure GrammarFollows (len bufEnd depth : ℕ) : Prop where
  single : ∀ beg pat rnum, 4 * pat.length + 1 ≤ depth →
    Follows len bufEnd (Written len pat.length)
      (regexSingle (memory len bufEnd) depth beg pat rnum) (regexSingle layout depth beg pat rnum)
  several : ∀ beg pat rnum, 4 * pat.length + 2 ≤ depth →
    Follows len bufEnd (Written len pat.length)
      (regexSeveral (memory len bufEnd) depth beg pat rnum)
      (regexSeveral layout depth beg pat rnum)
  catenate : ∀ ans pat rnum, 4 * pat.length + 3 ≤ depth →
    Follows len bufEnd (Placed bufEnd pat.length)
      (regexCatenate (memory len bufEnd) depth ans pat rnum)
      (regexCatenate layout depth ans pat rnum)
  alternate : ∀ beg pat rnum, 4 * pat.length + 4 ≤ depth →
    Follows len bufEnd (Placed bufEnd pat.length)
      (regexAlternate (memory len bufEnd) depth beg pat rnum)
      (regexAlternate layout depth beg pat rnum)

theorem follows_regexSingle {depth : ℕ} (ih : GrammarFollows len bufEnd depth) (beg : ℕ)
    (pat : List UInt8) (rnum : ℕ) (hdepth : 4 * pat.length + 1 ≤ depth + 1) :
    Follows len bufEnd (Written len pat.length)
      (regexSingle (memory len bufEnd) (depth + 1) beg pat rnum)
      (regexSingle layout (depth + 1) beg pat rnum) := by
  cases pat with
  | nil =>
      unfold regexSingle
      exact follows_serror 4
  | cons c pat =>
      have hpat : pat.length < (c :: pat).length := Nat.lt_succ_self _
      unfold regexSingle
      refine .ite (fun _ => follows_serror 4) fun _ => .ite (fun _ => follows_serror 2) fun _ =>
        .ite (fun _ => follows_serror 1) fun _ => .ite ?_ fun _ =>
        .ite (fun _ => follows_instruction hlen _ hpat) fun _ => .ite ?_ fun _ =>
        .ite (fun _ => follows_regexRange hlen hpat) fun _ =>
        .ite (fun _ => follows_instruction hlen _ hpat) fun _ =>
        .ite (fun _ => follows_instruction hlen _ hpat) fun _ => follows_instruction hlen _ hpat
      · -- `\`
        intro _
        refine .ite (fun _ => follows_serror 3) fun _ => follows_instruction hlen _ ?_
        rw [List.length_tail]
        exact (Nat.sub_le _ _).trans_lt hpat
      · -- `(`
        intro _
        refine (follows_concatc hlen _).bind ?_
        intro _ _
        refine (ih.alternate _ _ _ ?_).bind ?_
        · rw [List.length_cons] at hdepth
          omega
        · intro tmp htmp
          exact follows_regexClose hlen _ ⟨htmp.1, htmp.2.trans hpat⟩

theorem follows_regexCatenate {depth : ℕ} (ih : GrammarFollows len bufEnd depth) (ans : Bounds)
    (pat : List UInt8) (rnum : ℕ) (hdepth : 4 * pat.length + 3 ≤ depth + 1) :
    Follows len bufEnd (Placed bufEnd pat.length)
      (regexCatenate (memory len bufEnd) (depth + 1) ans pat rnum)
      (regexCatenate layout (depth + 1) ans pat rnum) := by
  unfold regexCatenate
  refine (ih.several _ _ _ (by omega)).bind ?_
  intro b hb
  have hshorter := hb.2
  refine (follows_concatb hlen hb.1).bind ?_
  intro stop hstop
  refine .ite ?_ ?_
  · intro _
    refine (ih.catenate _ _ _ (by omega)).mono ?_
    intro b' hb'
    exact ⟨hb'.1, hb'.2.trans hshorter⟩
  · intro _
    exact .pure ⟨hstop, hshorter⟩

theorem follows_regexAlternate {depth : ℕ} (ih : GrammarFollows len bufEnd depth) (beg : ℕ)
    (pat : List UInt8) (rnum : ℕ) (hdepth : 4 * pat.length + 4 ≤ depth + 1) :
    Follows len bufEnd (Placed bufEnd pat.length)
      (regexAlternate (memory len bufEnd) (depth + 1) beg pat rnum)
      (regexAlternate layout (depth + 1) beg pat rnum) := by
  unfold regexAlternate
  refine (ih.catenate _ _ _ (by omega)).bind ?_
  intro b1 hb1
  have hshorter := hb1.2
  refine .ite ?_ ?_
  · intro _
    have htail : b1.pat.tail.length ≤ b1.pat.length := by
      rw [List.length_tail]
      exact Nat.sub_le _ _
    refine (ih.alternate _ _ _ (by omega)).bind ?_
    intro b2 hb2
    exact follows_regexBranch hlen hb1 ⟨hb2.1, hb2.2.trans (htail.trans_lt hshorter)⟩
  · intro _
    refine (follows_concatb hlen (hb1.written hlen).1).bind ?_
    intro stop hstop
    exact .pure ⟨hstop, hshorter⟩

theorem grammarFollows (depth : ℕ) : GrammarFollows len bufEnd depth := by
  induction depth with
  | zero =>
      constructor
      all_goals
        intro _ _ _ hdepth
        exact absurd hdepth (Nat.not_succ_le_zero _)
  | succ depth ih =>
      refine ⟨follows_regexSingle hlen ih, ?_, follows_regexCatenate hlen ih,
        follows_regexAlternate hlen ih⟩
      intro beg pat rnum hdepth
      unfold regexSeveral
      refine (ih.single _ _ _ (by omega)).bind ?_
      intro b hb
      exact follows_regexRepeat hlen hb

end Pieces

/-! ## The whole pattern -/

section Compile

variable {len limit : ℕ}

theorem bufEnd_le (len : ℕ) (strict : Bool) : bufEnd len strict ≤ len := by
  cases strict
  · exact Nat.sub_le _ _
  · exact Nat.sub_le _ _

/-- A run that goes on where the layout's run ends well ends well itself. -/
theorem inside_bind_iff {α β : Type} {Q : α → Prop} {x : StateT Memory (Except Fault) α}
    {p : Plan Demand Fault α} {f : α → StateT Memory (Except Fault) β}
    (h : Follows len limit Q x p) (hf : ∀ a, Q a → ∀ s, ∃ r, f a s = .ok r) (s : Memory) :
    Inside ((x >>= f) s) ↔ Fits len limit p.demands := by
  have hrun := h.run s
  have hbind : (x >>= f) s = x s >>= fun r => f r.1 r.2 := rfl
  rw [hbind, fits_iff]
  cases hx : x s with
  | ok r =>
      rw [hx] at hrun
      obtain ⟨r', hr'⟩ := hf r.1 (h.ok r.1 hrun.symm) r.2
      have hmet : p.demands.findSome? (unmet len limit) = none := by
        unfold answer at hrun
        cases hmet : p.demands.findSome? (unmet len limit) with
        | none => rfl
        | some f => rw [hmet] at hrun; cases hrun
      rw [hmet]
      constructor
      · intro _ hundef
        cases hundef
      · intro _
        exact .inl ⟨r', hr'⟩
  | error e =>
      rw [hx] at hrun
      constructor
      · rintro (⟨r, hr⟩ | ⟨n, hn⟩) hundef
        · cases hr
        · cases hn
          rw [answer, hundef] at hrun
          cases hrun
      · intro hdefined
        rcases h.fails e hrun.symm with hunmet | ⟨n, rfl⟩
        · obtain ⟨demand, _, hdemand⟩ := List.exists_of_findSome?_eq_some hunmet
          rcases unmet_cases hdemand with rfl | rfl
          · exact absurd hunmet hdefined
          · exact .inr ⟨0, rfl⟩
        · exact .inr ⟨n, rfl⟩

theorem regexFinish_ok {strict : Bool} {n : ℕ} {tmp : Piece}
    (h : Placed (bufEnd len strict) n tmp) (s : Memory) :
    ∃ r, regexFinish len strict tmp s = .ok r := by
  have hplace := h.1
  have hend : bufEnd len strict ≤ len := bufEnd_le len strict
  cases strict with
  | false =>
      refine ⟨(tmp.rnum, Function.update (Function.update s tmp.bounds.stop 0) 0
        (UInt16.ofNat (tmp.bounds.stop + 1))), ?_⟩
      change (store len tmp.bounds.stop 0 >>= fun _ =>
        store len 0 (UInt16.ofNat (tmp.bounds.stop + 1)) >>= fun _ => pure tmp.rnum) s = _
      simp only [Bind.bind, StateT.bind, Except.bind,
        store_ok (show tmp.bounds.stop < len by omega), store_ok (show 0 < len by omega)]
      rfl
  | true =>
      refine ⟨(tmp.rnum, Function.update (Function.update (Function.update s tmp.bounds.stop
        (UInt16.ofNat reDollar)) (tmp.bounds.stop + 1) 0) 0
        (UInt16.ofNat (tmp.bounds.stop + 2))), ?_⟩
      change (store len tmp.bounds.stop _ >>= fun _ => store len (tmp.bounds.stop + 1) 0 >>= fun _ =>
        store len 0 (UInt16.ofNat (tmp.bounds.stop + 2)) >>= fun _ => pure tmp.rnum) s = _
      simp only [Bind.bind, StateT.bind, Except.bind,
        store_ok (show tmp.bounds.stop < len by omega),
        store_ok (show tmp.bounds.stop + 1 < len by omega), store_ok (show 0 < len by omega)]
      rfl

theorem inside_regexBody_iff (pattern : CString) (len : ℕ) (strict : Bool) (buffer : Memory) :
    Inside (regexBody pattern len strict buffer) ↔
      Fits len (bufEnd len strict) (layoutOf pattern strict).demands :=
  inside_bind_iff
    ((grammarFollows (bufEnd_le len strict) (depthFor pattern.bytes)).alternate _ _ _ le_rfl)
    (fun _ htmp s => regexFinish_ok htmp s) buffer

/-- A set in 251 groups. -/
def deepSet : CString :=
  cstring (List.replicate 251 (ascii '(') ++ [ascii '[', ascii 'a', ascii ']'] ++
    List.replicate 251 (ascii ')'))

end Compile

end Lush.Regex
