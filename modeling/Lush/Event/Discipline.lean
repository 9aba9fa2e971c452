import Lush.Event.Queue

/-!
# The discipline of the queue

As long as no other handler dies meanwhile, the operations are those of a list of
entries: `ev_add` puts an entry at the end, `event_get` takes the first one of its
handler, and `ev_finalize` all of them.  Seen from a handler, the queue is a queue of
its own (`queue_discipline`).
-/

namespace Lush.Event

open Chains

variable {η δ ε : Type} {q : Queue η δ ε}

/-! ## The cells of the queue -/

/-- The cells are linked from `head` to `tail`, and the free list has others. -/
structure Linked (q : Queue η δ ε) (cells : List ℕ) : Prop where
  chain : Chain q.cdr q.head cells
  tail : q.tail = last q.head cells
  nodup : (q.head :: cells).Nodup
  used : ∀ c ∈ q.head :: cells, c < q.fresh
  unused : ∀ c ∈ q.free, c < q.fresh ∧ c ∉ q.head :: cells
  free_nodup : q.free.Nodup

/-- The queue without the cell `p`, which comes after `pp`. -/
def unlinked (q : Queue η δ ε) (pp p : ℕ) : Queue η δ ε :=
  { q with
    cdr := Function.update (Function.update q.cdr pp (q.cdr p)) p none
    tail := if q.tail = p then pp else q.tail
    free := p :: q.free }

theorem evRemove_eq {pp p : ℕ} (h : q.cdr pp = some p) : evRemove q pp p = .ok (unlinked q pp p) :=
  if_neg (not_not.mpr h)

/-- **`ev_remove` takes out a cell**, and restores `tail` when it was the last one. -/
theorem Linked.unlinked {before after : List ℕ} {p : ℕ}
    (h : Linked q (before ++ p :: after)) :
    Linked (unlinked q (last q.head before) p) (before ++ after) := by
  have hsub : q.head :: (before ++ after) ⊆ q.head :: (before ++ p :: after) := by
    intro c hc
    simp only [List.mem_cons, List.mem_append] at hc ⊢
    tauto
  have hpout : p ∉ q.head :: (before ++ after) := by
    have hperm : (q.head :: (before ++ p :: after)).Perm (p :: q.head :: (before ++ after)) := by
      refine ((List.perm_middle).cons q.head).trans ?_
      exact List.Perm.swap ..
    exact (List.nodup_cons.mp (hperm.nodup_iff.mp h.nodup)).1
  refine ⟨h.chain.unlink h.nodup, ?_, ?_, fun c hc => h.used c (hsub hc), ?_, ?_⟩
  · change (if q.tail = p then last q.head before else q.tail) = _
    have hafter : (p :: after).Nodup :=
      (List.nodup_append.mp (List.nodup_cons.mp h.nodup).2).2.1
    rw [h.tail, last_append, last_cons, last_append]
    cases after with
    | nil => exact if_pos rfl
    | cons b after =>
        have hne : ¬last p (b :: after) = p := by
          rw [last_eq_head_iff hafter]
          exact List.cons_ne_nil b after
        rw [if_neg hne]
        rfl
  · refine h.nodup.sublist ?_
    exact ((List.sublist_cons_self p after).append_left before).cons_cons q.head
  · intro c hc
    rcases List.mem_cons.mp hc with rfl | hc
    · exact ⟨h.used c (by simp), hpout⟩
    · exact ⟨(h.unused c hc).1, fun hmem => (h.unused c hc).2 (hsub hmem)⟩
  · refine List.nodup_cons.mpr ⟨fun hmem => ?_, h.free_nodup⟩
    exact (h.unused p hmem).2 (by simp)

/-- There are not more cells than were ever used. -/
theorem Linked.length_lt {cells : List ℕ} (h : Linked q cells) : cells.length < q.fresh := by
  have hsub : q.head :: cells ⊆ List.range q.fresh :=
    fun c hc => List.mem_range.mpr (h.used c hc)
  have hle := (List.subperm_of_subset h.nodup hsub).length_le
  rw [List.length_cons, List.length_range] at hle
  exact hle

/-- The parts of the memory that taking cells out does not touch. -/
structure Same (q q' : Queue η δ ε) : Prop where
  car : q'.car = q.car
  head : q'.head = q.head
  fresh : q'.fresh = q.fresh

theorem same_unlinked (q : Queue η δ ε) (pp p : ℕ) : Same q (unlinked q pp p) :=
  ⟨rfl, rfl, rfl⟩

theorem Same.trans {q1 q2 q3 : Queue η δ ε} (h : Same q1 q2) (h' : Same q2 q3) : Same q1 q3 :=
  ⟨h'.car.trans h.car, h'.head.trans h.head, h'.fresh.trans h.fresh⟩

/-- The cells hold these entries. -/
def Entries (q : Queue η δ ε) (cells : List ℕ) (l : List (Entry η δ ε)) : Prop :=
  List.Forall₂ (fun c e => q.car c = some e) cells l

theorem Entries.congr {q' : Queue η δ ε} {cells : List ℕ} {l : List (Entry η δ ε)}
    (h : Entries q cells l) (heq : ∀ c ∈ cells, q'.car c = q.car c) : Entries q' cells l := by
  unfold Entries at h ⊢
  induction h with
  | nil => exact .nil
  | @cons c e cells l hc _ ih =>
      refine .cons ((heq c (by simp)).trans hc) (ih fun b hb => ?_)
      exact heq b (List.mem_cons_of_mem _ hb)

theorem Entries.same {q' : Queue η δ ε} {cells : List ℕ} {l : List (Entry η δ ε)}
    (h : Entries q cells l) (hsame : Same q q') : Entries q' cells l :=
  h.congr fun c _ => by rw [hsame.car]

theorem Entries.map_car {cells : List ℕ} {l : List (Entry η δ ε)} (h : Entries q cells l) :
    cells.map q.car = l.map some := by
  unfold Entries at h
  induction h with
  | nil => rfl
  | cons hc _ ih => rw [List.map_cons, List.map_cons, hc, ih]

/-- **`ev_finalize` takes out the entries of its handler.** -/
theorem finalizeLoop_ok [DecidableEq η] (handler : η) {before after : List ℕ}
    {l : List (Entry η δ ε)} {rounds : ℕ} (hlinked : Linked q (before ++ after))
    (hentries : Entries q after l) (hrounds : after.length < rounds) :
    ∃ q' after', finalizeLoop handler rounds (last q.head before) q = .ok q' ∧ Same q q' ∧
      Linked q' (before ++ after') ∧
      Entries q after' (l.filter fun e => e.handler ≠ handler) := by
  induction rounds generalizing q before after l with
  | zero => exact absurd hrounds (Nat.not_lt_zero _)
  | succ rounds ih =>
      cases hentries with
      | nil =>
          refine ⟨q, [], ?_, ⟨rfl, rfl, rfl⟩, hlinked, .nil⟩
          have hnext : q.cdr (last q.head before) = none := by
            have := hlinked.chain.next_last
            rwa [List.append_nil] at this
          rw [finalizeLoop, finalizeRound, hnext]
          rfl
      | @cons p e after l he hrest =>
          have hnext := hlinked.chain.next_cell
          have hhndl : evHndl q p = some e.handler := by rw [evHndl, he]; rfl
          rw [List.length_cons] at hrounds
          by_cases heq : e.handler = handler
          · obtain ⟨q', after', hloop, hsame, hlinked', hentries'⟩ :=
              ih hlinked.unlinked hrest (by omega)
            refine ⟨q', after', ?_, (same_unlinked ..).trans hsame, hlinked', ?_⟩
            · rw [finalizeLoop, finalizeRound, hnext]
              simp only [hhndl, heq, or_true, if_true, evRemove_eq hnext, Bind.bind, Except.bind]
              exact hloop
            · rwa [List.filter_cons_of_neg (by simpa using heq)]
          · have hne : ¬(evHndl q p = none ∨ evHndl q p = some handler) := by
              simp [hhndl, heq]
            have hsplit : before ++ p :: after = before ++ [p] ++ after := by simp
            rw [hsplit] at hlinked
            obtain ⟨q', after', hloop, hsame, hlinked', hentries'⟩ := ih hlinked hrest (by omega)
            rw [last_snoc] at hloop
            refine ⟨q', p :: after', ?_, hsame, by simpa using hlinked', ?_⟩
            · rw [finalizeLoop, finalizeRound, hnext]
              simp only [if_neg hne, Bind.bind, Except.bind]
              exact hloop
            · rw [List.filter_cons_of_pos (by simpa using heq)]
              exact .cons he hentries'

/-- **`event_get` finds the first entry of its handler**, and takes it out if asked. -/
theorem getLoop_ok [DecidableEq η] (handler : η) (remove : Bool) {before after : List ℕ}
    {l : List (Entry η δ ε)} {rounds : ℕ} (hlinked : Linked q (before ++ after))
    (hentries : Entries q after l) (hrounds : after.length < rounds) :
    ∃ q' after', getLoop handler remove rounds (last q.head before) q =
        .ok (q', (l.find? fun e => e.handler = handler).map (·.event)) ∧
      Same q q' ∧ Linked q' (before ++ after') ∧
      Entries q after' (if remove then l.eraseP fun e => e.handler = handler else l) := by
  induction rounds generalizing before after l with
  | zero => exact absurd hrounds (Nat.not_lt_zero _)
  | succ rounds ih =>
      cases hentries with
      | nil =>
          refine ⟨q, [], ?_, ⟨rfl, rfl, rfl⟩, hlinked, by cases remove <;> exact .nil⟩
          have hnext : q.cdr (last q.head before) = none := by
            have := hlinked.chain.next_last
            rwa [List.append_nil] at this
          rw [getLoop, hnext]
          rfl
      | @cons p e after l he hrest =>
          have hnext := hlinked.chain.next_cell
          rw [List.length_cons] at hrounds
          by_cases heq : e.handler = handler
          · have hfind : (e :: l).find? (fun e => e.handler = handler) = some e :=
              List.find?_cons_of_pos (by simpa using heq)
            rw [hfind]
            cases remove with
            | false =>
                refine ⟨evParsedesc q e, p :: after, ?_, ⟨rfl, rfl, rfl⟩, ?_, .cons he hrest⟩
                · rw [getLoop, hnext]
                  simp only [he, if_pos heq]
                  rfl
                · exact ⟨hlinked.chain, hlinked.tail, hlinked.nodup, hlinked.used, hlinked.unused,
                    hlinked.free_nodup⟩
            | true =>
                have hparsed : Linked (evParsedesc q e) (before ++ p :: after) :=
                  ⟨hlinked.chain, hlinked.tail, hlinked.nodup, hlinked.used, hlinked.unused,
                    hlinked.free_nodup⟩
                have hremove : evRemove (evParsedesc q e) (last q.head before) p =
                    .ok (unlinked (evParsedesc q e) (last q.head before) p) := evRemove_eq hnext
                refine ⟨unlinked (evParsedesc q e) (last q.head before) p, after, ?_, ⟨rfl, rfl, rfl⟩,
                  hparsed.unlinked, ?_⟩
                · rw [getLoop, hnext]
                  simp only [he, if_pos heq, if_true, hremove]
                  rfl
                · rw [if_pos rfl, List.eraseP_cons_of_pos (by simpa using heq)]
                  exact hrest
          · have hsplit : before ++ p :: after = before ++ [p] ++ after := by simp
            rw [hsplit] at hlinked
            obtain ⟨q', after', hloop, hsame, hlinked', hentries'⟩ := ih hlinked hrest (by omega)
            rw [last_snoc] at hloop
            refine ⟨q', p :: after', ?_, hsame, by simpa using hlinked', ?_⟩
            · rw [getLoop, hnext, List.find?_cons_of_neg (by simpa using heq)]
              simp only [he, if_neg heq]
              exact hloop
            · cases remove with
              | false => exact .cons he hentries'
              | true =>
                  rw [if_pos rfl, List.eraseP_cons_of_neg (by simpa using heq)]
                  exact .cons he hentries'

/-- `ev_peek` gives the handler of the first entry. -/
theorem evPeek_ok {cells : List ℕ} {l : List (Entry η δ ε)} (hlinked : Linked q cells)
    (hentries : Entries q cells l) : evPeek q = .ok (q, l.head?.map (·.handler)) := by
  unfold evPeek
  cases hentries with
  | nil =>
      have hnext : q.cdr q.head = none := hlinked.chain
      rw [peekLoop, hnext]
      rfl
  | @cons p e _ _ he _ =>
      have hnext : q.cdr q.head = some p := hlinked.chain.1
      have hhndl : evHndl q p = some e.handler := by rw [evHndl, he]; rfl
      rw [peekLoop, hnext]
      simp only [hhndl]
      rfl

/-- A new cell is not among those of the queue. -/
theorem cons_ok {cells : List ℕ} (hlinked : Linked q cells) (e : Entry η δ ε) :
    (cons q e).1 ∉ q.head :: cells ∧
      (cons q e).2.cdr = Function.update q.cdr (cons q e).1 none ∧
      (cons q e).2.car = Function.update q.car (cons q e).1 (some e) ∧
      (cons q e).2.head = q.head ∧ (cons q e).2.tail = q.tail ∧
      (∀ c ∈ (cons q e).1 :: q.head :: cells, c < (cons q e).2.fresh) ∧
      (∀ c ∈ (cons q e).2.free, c < (cons q e).2.fresh ∧
        c ∉ (cons q e).1 :: q.head :: cells) ∧ (cons q e).2.free.Nodup := by
  cases hfree : q.free with
  | nil =>
      have hcons : cons q e = (q.fresh, { q with
          car := Function.update q.car q.fresh (some e)
          cdr := Function.update q.cdr q.fresh none
          fresh := q.fresh + 1 }) := by rw [cons, hfree]
      rw [hcons]
      refine ⟨fun hmem => lt_irrefl _ (hlinked.used _ hmem), rfl, rfl, rfl, rfl, ?_, ?_, ?_⟩
      · intro c hc
        rcases List.mem_cons.mp hc with rfl | hc
        exacts [Nat.lt_succ_self _, (hlinked.used c hc).trans (Nat.lt_succ_self _)]
      · simp [hfree]
      · simp [hfree]
  | cons c free =>
      have hcons : cons q e = (c, { q with
          car := Function.update q.car c (some e)
          cdr := Function.update q.cdr c none
          free := free }) := by rw [cons, hfree]
      have hmem : ∀ b ∈ c :: free, b < q.fresh ∧ b ∉ q.head :: cells := by
        rw [← hfree]
        exact hlinked.unused
      obtain ⟨hc, hnodup⟩ : c ∉ free ∧ free.Nodup := by
        rw [← List.nodup_cons, ← hfree]
        exact hlinked.free_nodup
      rw [hcons]
      refine ⟨(hmem c (by simp)).2, rfl, rfl, rfl, rfl, ?_, ?_, hnodup⟩
      · intro b hb
        rcases List.mem_cons.mp hb with rfl | hb
        exacts [(hmem b (by simp)).1, hlinked.used b hb]
      · intro b hb
        refine ⟨(hmem b (List.mem_cons_of_mem _ hb)).1, fun hbc => ?_⟩
        rcases List.mem_cons.mp hbc with rfl | hbc
        exacts [hc hb, (hmem b (List.mem_cons_of_mem _ hb)).2 hbc]

/-- The entry that `ev_add` makes, if its arguments are there. -/
def newEntry (handler : Option η) (event : Option ε) (desc : Option δ) (mods : ℤ) :
    Option (Entry η δ ε) :=
  match handler, event with
  | some handler, some event =>
      some ⟨handler, desc, if 0 ≤ mods ∧ mods < 256 then some (UInt8.ofNat mods.toNat) else none,
        event⟩
  | _, _ => none

/-- **`ev_add` puts its entry at the end.** -/
theorem evAdd_ok {cells : List ℕ} {l : List (Entry η δ ε)} (hlinked : Linked q cells)
    (hentries : Entries q cells l) (handler : Option η) (event : Option ε) (desc : Option δ)
    (mods : ℤ) :
    ∃ cells', Linked (evAdd q handler event desc mods) cells' ∧
      Entries (evAdd q handler event desc mods) cells'
        (l ++ (newEntry handler event desc mods).toList) := by
  cases handler with
  | none => exact ⟨cells, hlinked, by simpa [newEntry, evAdd] using hentries⟩
  | some handler =>
      cases event with
      | none => exact ⟨cells, hlinked, by simpa [newEntry, evAdd] using hentries⟩
      | some event =>
          set e : Entry η δ ε := ⟨handler, desc,
            if 0 ≤ mods ∧ mods < 256 then some (UInt8.ofNat mods.toNat) else none, event⟩ with hedef
          obtain ⟨hfresh, hcdr, hcar, hhead, htail, hused, hunused, hnodup⟩ := cons_ok hlinked e
          have hadd : evAdd q (some handler) (some event) desc mods = { (cons q e).2 with
              cdr := Function.update (cons q e).2.cdr (cons q e).2.tail (some (cons q e).1)
              tail := (cons q e).1 } := rfl
          have hperm : ((cons q e).1 :: q.head :: cells).Perm (q.head :: (cells ++ [(cons q e).1])) := by
            refine (List.Perm.swap ..).trans (List.Perm.cons _ ?_)
            exact (List.perm_append_singleton _ _).symm
          rw [hadd]
          refine ⟨cells ++ [(cons q e).1], ⟨?_, ?_, ?_, ?_, ?_, hnodup⟩, ?_⟩
          · simp only [hcdr, htail, hhead, hlinked.tail]
            exact hlinked.chain.snoc hfresh hlinked.nodup
          · simp
          · simp only [hhead]
            exact hperm.nodup_iff.mp (List.nodup_cons.mpr ⟨hfresh, hlinked.nodup⟩)
          · simp only [hhead]
            exact fun c hc => hused c (hperm.mem_iff.mpr hc)
          · simp only [hhead]
            exact fun c hc => ⟨(hunused c hc).1, fun hmem => (hunused c hc).2 (hperm.mem_iff.mpr hmem)⟩
          · refine List.rel_append (hentries.congr fun c hc => ?_) (.cons ?_ .nil)
            · have hne : c ≠ (cons q e).1 := fun heq => hfresh (heq ▸ List.mem_cons_of_mem _ hc)
              simp only [hcar, Function.update_of_ne hne]
            · simp only [hcar, Function.update_self]
              rfl

/-! ## Sequences of operations -/

/-- The operations on the queue. -/
inductive Operation (η δ ε : Type)
  | add (handler : Option η) (event : Option ε) (desc : Option δ) (mods : ℤ)
  | get (handler : η) (remove : Bool)
  | peek
  | finalize (handler : η)

section Operations

variable [DecidableEq η]

/-- The effect of an operation on the queue. -/
def perform (q : Queue η δ ε) : Operation η δ ε → Except Fault (Queue η δ ε)
  | .add handler event desc mods => .ok (evAdd q handler event desc mods)
  | .get handler remove => Prod.fst <$> eventGet q handler remove
  | .peek => Prod.fst <$> evPeek q
  | .finalize handler => evFinalize q handler

/-- All entries that were ever added, in their order. -/
def added (operations : List (Operation η δ ε)) : List (Entry η δ ε) :=
  operations.flatMap fun
    | .add handler event desc mods => (newEntry handler event desc mods).toList
    | _ => []

/-- What an operation does to the queue of one handler. -/
def wait (handler : η) (entries : List (Entry η δ ε)) : Operation η δ ε → List (Entry η δ ε)
  | .add h event desc mods =>
      if h = some handler then entries ++ (newEntry h event desc mods).toList else entries
  | .get h remove => if h = handler ∧ remove then entries.tail else entries
  | .peek => entries
  | .finalize h => if h = handler then [] else entries

/-- The queue of one handler: what was added for it, and not yet taken. -/
def waiting (handler : η) (operations : List (Operation η δ ε)) : List (Entry η δ ε) :=
  operations.foldl (wait handler) []

/-- The queue is that of the operations made so far. -/
structure Disciplined (q : Queue η δ ε) (operations : List (Operation η δ ε))
    (cells : List ℕ) (l : List (Entry η δ ε)) : Prop where
  linked : Linked q cells
  entries : Entries q cells l
  sublist : l.Sublist (added operations)
  waiting : ∀ handler, l.filter (fun e => e.handler = handler) = waiting handler operations

omit [DecidableEq η] in
/-- All cells are still to be looked at. -/
theorem Linked.all {cells : List ℕ} (h : Linked q cells) : Linked q ([] ++ cells) := h

omit [DecidableEq η] in
/-- Taking the first of some elements takes it from these only. -/
theorem filter_eraseP {p : Entry η δ ε → Bool} (l : List (Entry η δ ε)) :
    (l.eraseP p).filter p = (l.filter p).tail ∧
      ∀ r : Entry η δ ε → Bool, (∀ e, p e = true → r e = false) →
        (l.eraseP p).filter r = l.filter r := by
  induction l with
  | nil => exact ⟨rfl, fun _ _ => rfl⟩
  | cons e l ih =>
      cases hp : p e with
      | true =>
          rw [List.eraseP_cons_of_pos hp, List.filter_cons_of_pos hp]
          refine ⟨rfl, fun r hr => ?_⟩
          rw [List.filter_cons_of_neg (by simp [hr e hp])]
      | false =>
          rw [List.eraseP_cons_of_neg (by simp [hp])]
          refine ⟨?_, fun r hr => ?_⟩
          · rw [List.filter_cons_of_neg (by simp [hp]), List.filter_cons_of_neg (by simp [hp])]
            exact ih.1
          · rw [List.filter_cons, List.filter_cons, ih.2 r hr]

theorem waiting_snoc (handler : η) (operations : List (Operation η δ ε))
    (operation : Operation η δ ε) : waiting handler (operations ++ [operation]) =
      wait handler (waiting handler operations) operation := by
  unfold waiting
  rw [List.foldl_append]
  rfl

omit [DecidableEq η] in
theorem added_snoc (operations : List (Operation η δ ε)) (operation : Operation η δ ε) :
    added (operations ++ [operation]) = added operations ++ added [operation] := by
  unfold added
  rw [List.flatMap_append]

/-- **Every operation keeps the discipline.** -/
theorem Disciplined.perform {operations : List (Operation η δ ε)} {cells : List ℕ}
    {l : List (Entry η δ ε)} (h : Disciplined q operations cells l) (operation : Operation η δ ε) :
    ∃ q' cells' l', perform q operation = .ok q' ∧
      Disciplined q' (operations ++ [operation]) cells' l' := by
  have hsub : l.Sublist (added (operations ++ [operation])) := by
    rw [added_snoc]
    exact h.sublist.trans (List.sublist_append_left _ _)
  have hrounds : cells.length < q.fresh + 1 := h.linked.length_lt.trans (Nat.lt_succ_self _)
  cases operation with
  | add handler event desc mods =>
      obtain ⟨cells', hlinked, hentries⟩ := evAdd_ok h.linked h.entries handler event desc mods
      refine ⟨_, cells', _, rfl, hlinked, hentries, ?_, fun g => ?_⟩
      · rw [added_snoc]
        refine h.sublist.append ?_
        simp [added]
      · rw [waiting_snoc, wait, List.filter_append, h.waiting]
        cases handler with
        | none => simp [newEntry]
        | some h0 =>
            cases event with
            | none => simp [newEntry]
            | some event =>
                by_cases heq : h0 = g
                · simp [newEntry, heq]
                · simp [newEntry, heq]
  | get handler remove =>
      obtain ⟨q', cells', hget, hsame, hlinked, hentries⟩ :=
        getLoop_ok handler remove h.linked.all h.entries hrounds
      have hdone : Event.perform q (.get handler remove) = .ok q' := by
        rw [Event.perform, eventGet]
        exact congrArg (Prod.fst <$> ·) hget
      refine ⟨q', cells', _, hdone, hlinked, hentries.same hsame, ?_, fun g => ?_⟩
      · split_ifs
        exacts [List.eraseP_sublist.trans hsub, hsub]
      · rw [waiting_snoc, wait]
        cases remove with
        | false => simp [h.waiting]
        | true =>
            obtain ⟨htail, hother⟩ := filter_eraseP (p := fun e => e.handler = handler) l
            by_cases heq : handler = g
            · subst heq
              simp only [if_true, and_self, ← h.waiting]
              exact htail
            · simp only [if_true, heq, false_and, if_false, ← h.waiting]
              refine hother _ fun e he => ?_
              have hhandler : e.handler = handler := by simpa using he
              simp [hhandler, heq]
  | peek =>
      refine ⟨q, cells, l, ?_, h.linked, h.entries, hsub, fun g => ?_⟩
      · rw [Event.perform, evPeek_ok h.linked h.entries]
        rfl
      · rw [waiting_snoc, wait, h.waiting]
  | finalize handler =>
      obtain ⟨q', cells', hloop, hsame, hlinked, hentries⟩ :=
        finalizeLoop_ok handler h.linked.all h.entries hrounds
      refine ⟨q', cells', _, hloop, hlinked, hentries.same hsame, List.filter_sublist.trans hsub,
        fun g => ?_⟩
      rw [waiting_snoc, wait, List.filter_filter]
      by_cases heq : handler = g
      · subst heq
        rw [if_pos rfl, List.filter_eq_nil_iff]
        simp
      · rw [if_neg heq, ← h.waiting]
        refine List.filter_congr fun e _ => ?_
        by_cases hg : e.handler = g
        · simp [hg, Ne.symm heq]
        · simp [hg]

theorem disciplined_init : Disciplined (init η δ ε) [] [] [] where
  linked := ⟨rfl, rfl, List.nodup_singleton 0, by simp [init], by simp [init], List.nodup_nil⟩
  entries := .nil
  sublist := .slnil
  waiting _ := rfl

theorem Disciplined.run {operations past : List (Operation η δ ε)} {cells : List ℕ}
    {l : List (Entry η δ ε)} (h : Disciplined q past cells l) :
    ∃ q' cells' l', operations.foldlM Event.perform q = .ok q' ∧
      Disciplined q' (past ++ operations) cells' l' := by
  induction operations generalizing q past cells l with
  | nil => exact ⟨q, cells, l, rfl, by simpa using h⟩
  | cons operation operations ih =>
      obtain ⟨q1, cells1, l1, hstep, h1⟩ := h.perform operation
      obtain ⟨q', cells', l', hrun, h'⟩ := ih h1
      refine ⟨q', cells', l', ?_, by simpa using h'⟩
      rw [List.foldlM_cons, hstep]
      exact hrun

/-- **The discipline of the event queue.**  After any sequence of operations on a new
queue, the cells are linked from `head` to `tail`, and hold entries that were added, in
the order in which they were added.  The entries of each handler are those added for it
that were not taken or finalized since; `event_get` returns the oldest of them, and
`ev_peek` the handler of the first entry of all. -/
theorem queue_discipline (operations : List (Operation η δ ε)) :
    ∃ (q : Queue η δ ε) (cells : List ℕ) (l : List (Entry η δ ε)),
      operations.foldlM perform (init η δ ε) = .ok q ∧ Chain q.cdr q.head cells ∧ q.tail = last q.head cells ∧
      cells.map q.car = l.map some ∧ l.Sublist (added operations) ∧
      (∀ handler, l.filter (fun e => e.handler = handler) = waiting handler operations) ∧
      (∀ handler remove, ∃ q', eventGet q handler remove =
        .ok (q', (waiting handler operations).head?.map (·.event))) ∧
      ∃ q', evPeek q = .ok (q', l.head?.map (·.handler)) := by
  obtain ⟨q, cells, l, hrun, h⟩ : ∃ (q : Queue η δ ε) (cells : List ℕ) (l : List (Entry η δ ε)),
      operations.foldlM perform (init η δ ε) = .ok q ∧ Disciplined q operations cells l :=
    disciplined_init.run
  have hrounds : cells.length < q.fresh + 1 := h.linked.length_lt.trans (Nat.lt_succ_self _)
  refine ⟨q, cells, l, hrun, h.linked.chain, h.linked.tail, h.entries.map_car, h.sublist, h.waiting,
    fun handler remove => ?_, q, evPeek_ok h.linked h.entries⟩
  obtain ⟨q', _, hget, -⟩ := getLoop_ok handler remove h.linked.all h.entries hrounds
  refine ⟨q', ?_⟩
  rw [← h.waiting, List.head?_filter]
  exact hget

end Operations

end Lush.Event
