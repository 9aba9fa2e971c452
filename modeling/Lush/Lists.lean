import Lush.Equality

/-!
# The list primitives

`length`, `last`, `lastcdr`, `member`, `append`, `reverse` and `assoc` follow the
`Cdr` chain of a list.  Against circular lists, a pointer `q` follows along at
half the speed, and a list whose next cell is `q` is circular.

All of these but `last` and `lastcdr` are one loop with different bodies
(`walk`).  What such a loop does can be said without `q` (`Walked`): the body
treats the cells one after the other, and stops at the first place where the
hare meets the tortoise.  So the loop ends, a chain that ends is followed to its
end, and where the loop stops because the list is circular every cell of the
chain has been treated (`Walked.met`).
-/

namespace Lush.Lists

open Chase

variable {ν σ β : Type}

/-! ## Chains -/

/-- `CONSP`. -/
def isCons (heap : ν → Object (Option ν)) : Option ν → Bool
  | none => false
  | some a =>
      match heap a with
      | .cons _ _ => true
      | _ => false

/-- The cell `n` of the chain that starts at `p`, or what the chain ends with. -/
abbrev place (heap : ν → Object (Option ν)) (p : Option ν) (n : ℕ) : Option ν :=
  (cdrOf heap)^[n] p

/-- The chain never leaves the cons cells. -/
def Looping (heap : ν → Object (Option ν)) (p : Option ν) : Prop :=
  ∀ n, isCons heap (place heap p n) = true

section Chain

variable {heap : ν → Object (Option ν)} {p : Option ν} {a : ν} {car cdr : Option ν} {m n : ℕ}

theorem isCons_iff : isCons heap p = true ↔ ∃ a car cdr, p = some a ∧ heap a = .cons car cdr := by
  cases p with
  | none => simp [isCons]
  | some a => cases h : heap a <;> simp [isCons, h]

theorem isCons_some (ha : heap a = .cons car cdr) : isCons heap (some a) = true :=
  isCons_iff.mpr ⟨a, car, cdr, rfl, ha⟩

theorem cdrOf_of_not_isCons (h : isCons heap p = false) : cdrOf heap p = none := by
  cases p with
  | none => rfl
  | some a =>
      cases ha : heap a with
      | cons car cdr => rw [isCons_some ha] at h; cases h
      | number _ | string _ | symbol _ | zombie => simp only [cdrOf, ha]

theorem place_succ (hn : place heap p n = some a) (ha : heap a = .cons car cdr) :
    place heap p (n + 1) = cdr := by
  rw [place, Function.iterate_succ_apply', ← place, hn, cdrOf_some ha]

theorem Looping.isCons (h : Looping heap p) : isCons heap p = true :=
  h 0

/-- Before a cell there are cells. -/
theorem isCons_of_le (h : isCons heap (place heap p n) = true) (hmn : m ≤ n) :
    isCons heap (place heap p m) = true := by
  by_contra hm
  have hnone : ∀ d, place heap p (m + 1 + d) = none := by
    intro d
    induction d with
    | zero =>
        rw [Nat.add_zero, place, Function.iterate_succ_apply', ← place]
        exact cdrOf_of_not_isCons (Bool.eq_false_of_not_eq_true hm)
    | succ d ih => rw [← Nat.add_assoc, place, Function.iterate_succ_apply', ← place, ih]; rfl
  rcases hmn.lt_or_eq with hlt | rfl
  · obtain ⟨d, rfl⟩ := Nat.exists_eq_add_of_le hlt
    rw [hnone d] at h
    cases h
  · exact hm h

theorem readCdr_ok (h : isCons heap p = true) : readCdr heap p = .ok (cdrOf heap p) := by
  obtain ⟨a, car, cdr, rfl, ha⟩ := isCons_iff.mp h
  simp only [readCdr, cdrOf, ha]

/-- **A chain loops when it comes back to one of its cells**, after a tail of any
length and with any period. -/
theorem looping_iff [Fintype ν] [DecidableEq ν] : Looping heap p ↔
    ∃ tail period, 0 < period ∧ isCons heap (place heap p tail) = true ∧
      place heap p (tail + period) = place heap p tail := by
  constructor
  · intro h
    obtain ⟨i, j, hij, -, heq⟩ := exists_repeat (cdrOf heap) p
    obtain ⟨period, rfl⟩ := Nat.exists_eq_add_of_le hij.le
    exact ⟨i, period, by omega, h i, heq⟩
  · rintro ⟨tail, period, hpos, hcons, heq⟩ n
    -- some whole number of periods after the tail lies beyond `n`
    have hfar : place heap p (tail + period * n) = place heap p tail :=
      iterate_add_mul heq le_rfl n
    apply isCons_of_le (n := tail + period * n) (by rw [hfar]; exact hcons)
    calc n ≤ period * n := Nat.le_mul_of_pos_left n hpos
      _ ≤ tail + period * n := Nat.le_add_left _ _

/-- Where the hare meets the tortoise on a cell, the chain loops. -/
theorem MeetsAt.looping {phase : ℕ} (hphase : phase ≤ 1) (hcons : isCons heap (place heap p n) = true)
    (h : MeetsAt phase (cdrOf heap) p n) : Looping heap p := by
  intro m
  obtain ⟨j, hj, heq⟩ := h.cover hphase m
  rw [place, heq]
  exact isCons_of_le hcons hj

end Chain

/-! ## The code -/

/-- What the body of a loop does with a cell: it goes on, or returns. -/
inductive Step (σ β : Type)
  | go (s : σ)
  | ret (b : β)

/-- How a loop is left: by a `return` in its body, at an object that is no cell, or
where the next cell is the slow pointer. -/
inductive Exit (ν σ β : Type)
  | returned (b : β)
  | ended (s : σ) (p : Option ν)
  | met (s : σ)
deriving DecidableEq

/-- The loop of most of the list primitives; along with the way it is left, the
cells that its body has treated, in order. -/
def walk [DecidableEq ν] (heap : ν → Object (Option ν))
    (body : ν → Option ν → σ → Except Fault (Step σ β)) :
    ℕ → Option ν → Bool → Option ν → σ → Except Fault (List ν × Exit ν σ β)
  | 0, _, _, _, _ => .error .depth
  | _ + 1, _, _, none, s => .ok ([], .ended s none)
  | fuel + 1, q, toggle, some a, s =>
      match heap a with
      | .cons car cdr => do
          match ← body a car s with
          | .ret b => .ok ([a], .returned b)
          | .go s =>
              if cdr = q then
                .ok ([a], .met s)
              else
                let q ← (if !toggle then readCdr heap q else .ok q)
                let (cells, exit) ← walk heap body fuel q (!toggle) cdr s
                .ok (a :: cells, exit)
      | _ => .ok ([], .ended s (some a))

/-- The loop of `length`, which looks at the parity of `i` for a toggle. -/
def lengthLoop [DecidableEq ν] (heap : ν → Object (Option ν)) :
    ℕ → Option ν → ℕ → Option ν → Except Fault ℤ
  | 0, _, _, _ => .error .depth
  | _ + 1, _, i, none => .ok i
  | fuel + 1, q, i, some p =>
      match heap p with
      | .cons _ cdr =>
          if cdr = q then
            .ok (-1)
          else do
            let q ← (if (i + 1) % 2 = 1 then readCdr heap q else .ok q)
            lengthLoop heap fuel q (i + 1) cdr
      | _ => .ok i

/-- The loop of `last` and of `lastcdr`; it gives the last cell. -/
def lastLoop [DecidableEq ν] (heap : ν → Object (Option ν)) :
    ℕ → Option ν → Bool → Option ν → Except Fault (Option ν)
  | 0, _, _, _ => .error .depth
  | fuel + 1, q, toggle, list => do
      let cdr ← readCdr heap list
      if isCons heap cdr then
        if cdr = q then
          .error (.error "circular list has no last element")
        else
          let q ← (if !toggle then readCdr heap q else .ok q)
          lastLoop heap fuel q (!toggle) cdr
      else
        .ok list

/-- The new cells that a function makes: their `Car`s, in order, and what is in the
last `Cdr`. -/
structure Cells (ν : Type) where
  cars : List (Option ν)
  tail : Option ν
deriving DecidableEq

section Code

variable [DecidableEq ν] [Fintype ν] (heap : ν → Object (Option ν))

/-- A loop is left after at most twice as many rounds as there are references. -/
def rounds (ν : Type) [Fintype ν] : ℕ :=
  2 * Fintype.card (Option ν) + 1

/-- `length`. -/
def length (p : Option ν) : Except Fault ℤ :=
  lengthLoop heap (rounds ν) p 0 p

/-- `last`: what ends the chain, if it is an atom, or the last element. -/
def last (list : Option ν) : Except Fault (Option ν) :=
  if isCons heap list then do
    let list ← lastLoop heap (rounds ν) list true list
    match list.map heap with
    | some (.cons car cdr) => .ok (if cdr ≠ none then cdr else car)
    | _ => .error .undefined
  else
    .ok none

/-- `lastcdr`. -/
def lastcdr (list : Option ν) : Except Fault (Option ν) :=
  if isCons heap list then
    lastLoop heap (rounds ν) list false list
  else
    .ok none

/-- The loop of `member`. -/
def memberWalk (elem list : Option ν) : Except Fault (List ν × Exit ν Unit ν) :=
  walk heap (fun list car s => do
    if ← eqTest heap car elem then .ok (.ret list) else .ok (.go s)) (rounds ν) list false list ()

/-- `member`. -/
def member (elem list : Option ν) : Except Fault (Option ν) := do
  match ← memberWalk heap elem list with
  | (_, .returned list) => .ok (some list)
  | _ => .ok none

/-- `append`. -/
def append (l1 l2 : Option ν) : Except Fault (Cells ν) := do
  let answer ← walk (β := Empty) heap (fun _ car answer => .ok (.go (answer ++ [car]))) (rounds ν)
    l1 false l1 []
  match answer with
  | (_, .ended answer _) => .ok ⟨answer, l2⟩
  | (_, .met _) => .error (.error "Cannot append after a circular list")

/-- `reverse`. -/
def reverse (l : Option ν) : Except Fault (Cells ν) := do
  let r ← walk (β := Empty) heap (fun _ car r => .ok (.go (car :: r))) (rounds ν) l false l []
  match r with
  | (_, .ended r _) => .ok ⟨r, none⟩
  | (_, .met _) => .error (.error "Cannot reverse a circular list")

/-- The body of `assoc`: is the element a cell whose `Car` is the key? -/
def assocKey (k p : Option ν) : Except Fault Bool :=
  match p.map heap with
  | some (.cons key _) => eqTest heap key k
  | _ => .ok false

/-- The loop of `assoc`. -/
def assocWalk (k l : Option ν) : Except Fault (List ν × Exit ν Unit (Option ν)) :=
  walk heap (fun _ p s => do
    if ← assocKey heap k p then .ok (.ret p) else .ok (.go s)) (rounds ν) l false l ()

/-- `assoc`. -/
def assoc (k l : Option ν) : Except Fault (Option ν) := do
  match ← assocWalk heap k l with
  | (_, .returned p) => .ok p
  | _ => .ok none

end Code

/-! ## What a loop does -/

section Walked

variable {heap : ν → Object (Option ν)} {body : ν → Option ν → σ → Except Fault (Step σ β)}
  {p : Option ν}

/-- The slow pointer goes on when the toggle comes on. -/
theorem tortoise_step {phase n : ℕ} (hphase : phase ≤ 1)
    (hn : isCons heap (place heap p n) = true) :
    (if !decide ((n + phase) % 2 = 0) then readCdr heap (place heap p ((n + phase) / 2))
      else .ok (place heap p ((n + phase) / 2))) = .ok (place heap p ((n + 1 + phase) / 2)) ∧
      (!decide ((n + phase) % 2 = 0)) = decide ((n + 1 + phase) % 2 = 0) := by
  rcases Nat.mod_two_eq_zero_or_one (n + phase) with h | h
  · have hhalf : (n + 1 + phase) / 2 = (n + phase) / 2 := by omega
    have hodd : ¬(n + 1 + phase) % 2 = 0 := by omega
    simp [h, hhalf, hodd]
  · have hhalf : (n + 1 + phase) / 2 = (n + phase) / 2 + 1 := by omega
    have heven : (n + 1 + phase) % 2 = 0 := by omega
    have hslow : isCons heap (place heap p ((n + phase) / 2)) = true :=
      isCons_of_le hn (by omega)
    simp [h, hhalf, heven, readCdr_ok hslow, place, Function.iterate_succ_apply']

/-- What `walk` does from the cell `n` of the chain on, said without the slow
pointer. -/
inductive Walked (heap : ν → Object (Option ν))
    (body : ν → Option ν → σ → Except Fault (Step σ β)) (p : Option ν) :
    ℕ → σ → List ν → Exit ν σ β → Prop
  | ended {n : ℕ} {s : σ} (hn : isCons heap (place heap p n) = false) :
      Walked heap body p n s [] (.ended s (place heap p n))
  | returned {n : ℕ} {s : σ} {a : ν} {car cdr : Option ν} {b : β}
      (hn : place heap p n = some a) (ha : heap a = .cons car cdr)
      (hbody : body a car s = .ok (.ret b)) : Walked heap body p n s [a] (.returned b)
  | met {n : ℕ} {s s' : σ} {a : ν} {car cdr : Option ν}
      (hn : place heap p n = some a) (ha : heap a = .cons car cdr)
      (hbody : body a car s = .ok (.go s')) (hmeets : Meets (cdrOf heap) p n) :
      Walked heap body p n s [a] (.met s')
  | next {n : ℕ} {s s' : σ} {a : ν} {car cdr : Option ν} {cells : List ν} {exit : Exit ν σ β}
      (hn : place heap p n = some a) (ha : heap a = .cons car cdr)
      (hbody : body a car s = .ok (.go s')) (hmeets : ¬Meets (cdrOf heap) p n)
      (h : Walked heap body p (n + 1) s' cells exit) : Walked heap body p n s (a :: cells) exit

/-- **A loop ends, and does what `Walked` says.** -/
theorem walk_ok [DecidableEq ν] [Fintype ν] (hbody : ∀ a car s, ∃ r, body a car s = .ok r)
    {fuel n : ℕ} (hmeets : ∀ m < n, ¬Meets (cdrOf heap) p m) (hfuel : rounds ν ≤ fuel + n) (s : σ) :
    ∃ cells exit, walk heap body fuel (place heap p ((n + 1) / 2)) (decide ((n + 1) % 2 = 0))
      (place heap p n) s = .ok (cells, exit) ∧ Walked heap body p n s cells exit := by
  induction fuel generalizing n s with
  | zero =>
      have := lt_of_not_meets hmeets
      rw [rounds] at hfuel
      omega
  | succ fuel ih =>
      cases hn : place heap p n with
      | none => exact ⟨[], _, rfl, hn ▸ .ended (by rw [hn]; rfl)⟩
      | some a =>
          cases ha : heap a with
          | number _ | string _ | symbol _ | zombie =>
              refine ⟨[], .ended s (some a), by simp only [walk, ha], ?_⟩
              exact hn ▸ .ended (by rw [hn]; simp only [isCons, ha])
          | cons car cdr =>
              have hcons : isCons heap (place heap p n) = true := hn ▸ isCons_some ha
              have hnext : place heap p (n + 1) = cdr := place_succ hn ha
              obtain ⟨r, hr⟩ := hbody a car s
              cases r with
              | ret b =>
                  refine ⟨[a], .returned b, ?_, .returned hn ha hr⟩
                  simp only [walk, ha, hr, Bind.bind, Except.bind]
              | go s' =>
                  by_cases heq : Meets (cdrOf heap) p n
                  · refine ⟨[a], .met s', ?_, .met hn ha hr heq⟩
                    have hq : cdr = place heap p ((n + 1) / 2) := hnext.symm.trans heq
                    simp only [walk, ha, hr, Bind.bind, Except.bind]
                    rw [if_pos hq]
                  · have hq : cdr ≠ place heap p ((n + 1) / 2) := fun hq => heq (hnext.trans hq)
                    obtain ⟨hslow, htoggle⟩ := tortoise_step (le_refl 1) hcons
                    obtain ⟨cells, exit, hwalk, hwalked⟩ := ih (n := n + 1)
                      (fun m hm => (Nat.lt_succ_iff_lt_or_eq.mp hm).elim (hmeets m)
                        fun hm => hm ▸ heq) (by omega) s'
                    refine ⟨a :: cells, exit, ?_, .next hn ha hr heq hwalked⟩
                    simp only [walk, ha, hr, Bind.bind, Except.bind]
                    rw [if_neg hq, hslow]
                    simp only [htoggle]
                    rw [hnext] at hwalk
                    rw [hwalk]

end Walked

section Results

variable {heap : ν → Object (Option ν)} {body : ν → Option ν → σ → Except Fault (Step σ β)}
  {p : Option ν} {n : ℕ} {s : σ} {cells : List ν} {exit : Exit ν σ β}

/-- **A loop that stops because the next cell is the slow pointer is on a chain that
loops, and has treated every cell of it.** -/
theorem Walked.met_cover (h : Walked heap body p 0 s cells exit) (hexit : ∃ s', exit = .met s') :
    Looping heap p ∧ ∀ m, ∃ a ∈ cells, place heap p m = some a := by
  -- from the cell `n` on, the cells up to the meeting are treated
  have hmet : ∀ {n s cells} {exit : Exit ν σ β}, Walked heap body p n s cells exit →
      (∃ s', exit = .met s') → ∃ k, isCons heap (place heap p k) = true ∧
        Meets (cdrOf heap) p k ∧ ∀ j, n ≤ j → j ≤ k → ∃ a ∈ cells, place heap p j = some a := by
    intro n s cells exit h
    induction h with
    | ended hn => rintro ⟨s', h⟩; cases h
    | returned hn ha hbody => rintro ⟨s', h⟩; cases h
    | @met n _ _ a _ _ hn ha hbody hmeets =>
        intro _
        refine ⟨n, hn ▸ isCons_some ha, hmeets, fun j hlow hhigh => ⟨a, by simp, ?_⟩⟩
        rw [le_antisymm hhigh hlow, hn]
    | @next n _ _ a _ _ _ _ hn ha hbody hmeets _ ih =>
        intro hexit
        obtain ⟨k, hcons, hk, hcells⟩ := ih hexit
        refine ⟨k, hcons, hk, fun j hlow hhigh => ?_⟩
        rcases hlow.eq_or_lt with rfl | hlt
        · exact ⟨a, by simp, hn⟩
        · obtain ⟨b, hb, hj⟩ := hcells j hlt hhigh
          exact ⟨b, List.mem_cons_of_mem _ hb, hj⟩
  obtain ⟨k, hcons, hk, hcells⟩ := hmet h hexit
  refine ⟨MeetsAt.looping le_rfl hcons hk, fun m => ?_⟩
  obtain ⟨j, hj, heq⟩ := MeetsAt.cover le_rfl hk m
  rw [place, heq]
  exact hcells j (Nat.zero_le j) hj

/-- A loop that comes to an end of the chain is on a chain that does not loop. -/
theorem Walked.not_looping (h : Walked heap body p n s cells exit)
    (hexit : ∃ s' q, exit = .ended s' q) : ¬Looping heap p := by
  induction h with
  | @ended n _ hn =>
      intro hloop
      rw [hloop n] at hn
      cases hn
  | returned hn ha hbody => obtain ⟨s', q, h⟩ := hexit; cases h
  | met hn ha hbody hmeets => obtain ⟨s', q, h⟩ := hexit; cases h
  | next hn ha hbody hmeets _ ih => exact ih hexit

/-- Unless the body returned, it has gone on at every cell it treated. -/
theorem Walked.gone (h : Walked heap body p n s cells exit) (hexit : ∀ b, exit ≠ .returned b) :
    ∀ a ∈ cells, ∃ car cdr s s', heap a = .cons car cdr ∧ body a car s = .ok (.go s') := by
  induction h with
  | ended hn => intro a ha; cases ha
  | returned hn ha hbody => exact absurd rfl (hexit _)
  | met hn ha hbody hmeets =>
      intro a hmem
      rw [List.mem_singleton.mp hmem]
      exact ⟨_, _, _, _, ha, hbody⟩
  | next hn ha hbody hmeets _ ih =>
      intro a hmem
      rcases List.mem_cons.mp hmem with rfl | hmem
      · exact ⟨_, _, _, _, ha, hbody⟩
      · exact ih hexit a hmem

/-- Where a loop has come to the end of the chain, it has treated every cell. -/
theorem Walked.ended_cover (h : Walked heap body p n s cells exit)
    (hexit : ∃ s' q, exit = .ended s' q) {m : ℕ} (hm : n ≤ m)
    (hcons : isCons heap (place heap p m) = true) : ∃ a ∈ cells, place heap p m = some a := by
  induction h with
  | @ended n _ hn =>
      rw [isCons_of_le hcons hm] at hn
      cases hn
  | returned hn ha hbody => obtain ⟨s', q, h⟩ := hexit; cases h
  | met hn ha hbody hmeets => obtain ⟨s', q, h⟩ := hexit; cases h
  | @next _ _ _ a _ _ _ _ hn ha hbody hmeets _ ih =>
      rcases hm.eq_or_lt with rfl | hlt
      · exact ⟨a, by simp, hn⟩
      · obtain ⟨b, hb, hmb⟩ := ih hexit hlt
        exact ⟨b, List.mem_cons_of_mem _ hb, hmb⟩

/-- **A loop whose body never returns meets the slow pointer exactly on a chain that
loops.** -/
theorem Walked.met_iff (h : Walked heap body p 0 s cells exit) (hexit : ∀ b, exit ≠ .returned b) :
    (∃ s', exit = .met s') ↔ Looping heap p := by
  refine ⟨fun hmet => (h.met_cover hmet).1, fun hloop => ?_⟩
  cases exit with
  | returned b => exact absurd rfl (hexit b)
  | ended s' q => exact absurd hloop (h.not_looping ⟨s', q, rfl⟩)
  | met s' => exact ⟨s', rfl⟩

end Results

/-! ## Circular lists -/

section Circular

variable [DecidableEq ν] [Fintype ν] {heap : ν → Object (Option ν)} {p : Option ν}

/-- The body that counts the cells. -/
def count : ν → Option ν → ℕ → Except Fault (Step ℕ Empty) :=
  fun _ _ i => .ok (.go (i + 1))

/-- What `length` makes of the way its loop is left. -/
def counted : Exit ν ℕ Empty → ℤ
  | .ended i _ => i
  | .met _ => -1

omit [Fintype ν] in
/-- The loop of `length` is a loop that counts its cells: the parity of `i` is the
toggle. -/
theorem lengthLoop_eq (fuel : ℕ) (q : Option ν) (i : ℕ) (p : Option ν) :
    lengthLoop heap fuel q i p =
      (walk heap count fuel q (decide ((i + 1) % 2 = 0)) p i).map fun r => counted r.2 := by
  induction fuel generalizing q i p with
  | zero => rfl
  | succ fuel ih =>
      cases p with
      | none => rfl
      | some a =>
          cases ha : heap a with
          | number _ | string _ | symbol _ | zombie =>
              simp only [lengthLoop, walk, ha, Except.map, counted]
          | cons car cdr =>
              have hodd : (!decide ((i + 1) % 2 = 0)) = decide ((i + 1) % 2 = 1) := by
                rcases Nat.mod_two_eq_zero_or_one (i + 1) with h | h <;> simp [h]
              have htoggle : decide ((i + 1) % 2 = 1) = decide ((i + 1 + 1) % 2 = 0) := by
                rcases Nat.mod_two_eq_zero_or_one (i + 1) with h | h <;>
                  simp only [h] <;> simp <;> omega
              by_cases hq : cdr = q
              · simp only [lengthLoop, walk, ha, count, Bind.bind, Except.bind, if_pos hq, Except.map,
                  counted]
              · simp only [lengthLoop, walk, ha, count, Bind.bind, Except.bind, if_neg hq, hodd,
                  decide_eq_true_eq]
                split
                · rfl
                next q' _ =>
                  rw [ih q' (i + 1) cdr, ← htoggle]
                  cases walk heap count fuel q' (decide ((i + 1) % 2 = 1)) cdr (i + 1) <;> rfl

/-- A loop from the start of a chain. -/
theorem walk_start (heap : ν → Object (Option ν))
    {body : ν → Option ν → σ → Except Fault (Step σ β)}
    (hbody : ∀ a car s, ∃ r, body a car s = .ok r) (p : Option ν) (s : σ) :
    ∃ cells exit, walk heap body (rounds ν) p false p s = .ok (cells, exit) ∧
      Walked heap body p 0 s cells exit :=
  walk_ok hbody (n := 0) (fun _ hm => absurd hm (Nat.not_lt_zero _)) le_rfl s

omit [DecidableEq ν] [Fintype ν] in
/-- The count is the number of the cell. -/
theorem Walked.counted_eq {n s : ℕ} {cells : List ν} {exit : Exit ν ℕ Empty}
    (h : Walked heap count p n s cells exit) (hs : s = n) (hloop : ¬Looping heap p) :
    ∃ m : ℕ, counted exit = m ∧ isCons heap (place heap p m) = false ∧
      ∀ j, n ≤ j → j < m → isCons heap (place heap p j) = true := by
  induction h with
  | @ended n s hn =>
      subst hs
      exact ⟨s, rfl, hn, fun j hlow hhigh => absurd hlow (Nat.not_le.mpr hhigh)⟩
  | returned hn ha hbody => cases hbody
  | met hn ha hbody hmeets =>
      exact absurd (MeetsAt.looping le_rfl (hn ▸ isCons_some ha) hmeets) hloop
  | @next n _ _ _ _ _ _ _ hn ha hbody hmeets _ ih =>
      obtain ⟨m, hcount, hend, hcells⟩ := ih (by cases hbody; rw [hs])
      refine ⟨m, hcount, hend, fun j hlow hhigh => ?_⟩
      rcases hlow.eq_or_lt with rfl | hlt
      · exact hn ▸ isCons_some ha
      · exact hcells j hlt hhigh

/-- **`length` counts the cells of a chain that ends, and gives -1 for one that
loops.** -/
theorem length_ok (heap : ν → Object (Option ν)) (p : Option ν) :
    ∃ i, length heap p = .ok i ∧ (i = -1 ↔ Looping heap p) ∧
      (¬Looping heap p → ∃ n : ℕ, i = n ∧ isCons heap (place heap p n) = false ∧
        ∀ m < n, isCons heap (place heap p m) = true) := by
  obtain ⟨cells, exit, hwalk, hwalked⟩ := walk_start heap
    (show ∀ a car s, ∃ r, count a car s = .ok r from fun _ _ s => ⟨.go (s + 1), rfl⟩) p 0
  refine ⟨counted exit, ?_, ?_, fun hloop => ?_⟩
  · rw [length, lengthLoop_eq]
    simp only [Nat.zero_add, Nat.reduceMod, Nat.reduceEqDiff, decide_false, hwalk, Except.map]
  · rw [← hwalked.met_iff (fun b => b.elim)]
    cases exit with
    | ended i q => simp [counted]
    | met i => simp [counted]
    | returned b => exact b.elim
  · obtain ⟨m, hcount, hend, hcells⟩ := hwalked.counted_eq rfl hloop
    exact ⟨m, hcount, hend, fun j hj => hcells j (Nat.zero_le j) hj⟩

/-- **`last` and `lastcdr` find the last cell of a chain that ends, and report one that
loops.** -/
theorem lastLoop_ok {phase : ℕ} (hphase : phase ≤ 1) {fuel n : ℕ}
    (hcons : isCons heap (place heap p n) = true)
    (hmeets : ∀ m < n, ¬MeetsAt phase (cdrOf heap) p m) (hfuel : rounds ν ≤ fuel + n) :
    (Looping heap p ∧ lastLoop heap fuel (place heap p ((n + phase) / 2))
      (decide ((n + phase) % 2 = 0)) (place heap p n) =
        .error (.error "circular list has no last element")) ∨
      (¬Looping heap p ∧ ∃ k, isCons heap (place heap p k) = true ∧
        isCons heap (place heap p (k + 1)) = false ∧
        lastLoop heap fuel (place heap p ((n + phase) / 2)) (decide ((n + phase) % 2 = 0))
          (place heap p n) = .ok (place heap p k)) := by
  induction fuel generalizing n with
  | zero =>
      have := lt_of_not_meetsAt hphase hmeets
      rw [rounds] at hfuel
      omega
  | succ fuel ih =>
      have hcdr : readCdr heap (place heap p n) = .ok (place heap p (n + 1)) := by
        rw [readCdr_ok hcons, place, place, Function.iterate_succ_apply']
      cases hnext : isCons heap (place heap p (n + 1)) with
      | false =>
          refine .inr ⟨fun hloop => ?_, n, hcons, hnext, ?_⟩
          · rw [hloop (n + 1)] at hnext
            cases hnext
          · simp only [lastLoop, hcdr, Bind.bind, Except.bind, hnext, Bool.false_eq_true, if_false]
      | true =>
          by_cases heq : MeetsAt phase (cdrOf heap) p n
          · refine .inl ⟨MeetsAt.looping hphase hcons heq, ?_⟩
            have hq : place heap p (n + 1) = place heap p ((n + phase) / 2) := heq
            simp only [lastLoop, hcdr, Bind.bind, Except.bind, hnext, if_true]
            rw [if_pos hq]
          · have hq : place heap p (n + 1) ≠ place heap p ((n + phase) / 2) := heq
            obtain ⟨hslow, htoggle⟩ := tortoise_step hphase hcons
            have hstep : lastLoop heap (fuel + 1) (place heap p ((n + phase) / 2))
                (decide ((n + phase) % 2 = 0)) (place heap p n) =
                lastLoop heap fuel (place heap p ((n + 1 + phase) / 2))
                  (decide ((n + 1 + phase) % 2 = 0)) (place heap p (n + 1)) := by
              simp only [lastLoop, hcdr, Bind.bind, Except.bind, hnext, if_true]
              rw [if_neg hq, hslow, htoggle]
            rw [hstep]
            exact ih hnext (fun m hm => (Nat.lt_succ_iff_lt_or_eq.mp hm).elim (hmeets m)
              fun hm => hm ▸ heq) (by omega)

theorem last_ok (heap : ν → Object (Option ν)) (p : Option ν) :
    (Looping heap p ∧ last heap p = .error (.error "circular list has no last element")) ∨
      (¬Looping heap p ∧ ∃ r, last heap p = .ok r) := by
  cases hp : isCons heap p with
  | false =>
      refine .inr ⟨fun hloop => ?_, none, by simp only [last, hp, Bool.false_eq_true, if_false]⟩
      exact absurd hloop.isCons (by rw [hp]; exact Bool.false_ne_true)
  | true =>
      rcases lastLoop_ok (n := 0) (Nat.zero_le 1) hp
        (fun m hm => absurd hm (Nat.not_lt_zero m)) (le_refl (rounds ν))
        with ⟨hloop, hlast⟩ | ⟨hloop, k, hcons, -, hlast⟩
      · refine .inl ⟨hloop, ?_⟩
        simp only [last, hp, if_true]
        exact congrArg (· >>= _) hlast
      · obtain ⟨a, car, cdr, hk, ha⟩ := isCons_iff.mp hcons
        refine .inr ⟨hloop, if cdr ≠ none then cdr else car, ?_⟩
        simp only [last, hp, if_true]
        refine (congrArg (· >>= _) hlast).trans ?_
        simp only [hk, Bind.bind, Except.bind, Option.map_some, ha]

theorem lastcdr_ok (heap : ν → Object (Option ν)) (p : Option ν) :
    (Looping heap p ∧ lastcdr heap p = .error (.error "circular list has no last element")) ∨
      (¬Looping heap p ∧ ∃ r, lastcdr heap p = .ok r) := by
  cases hp : isCons heap p with
  | false =>
      refine .inr ⟨fun hloop => ?_, none, by simp only [lastcdr, hp, Bool.false_eq_true, if_false]⟩
      exact absurd hloop.isCons (by rw [hp]; exact Bool.false_ne_true)
  | true =>
      rcases lastLoop_ok (n := 0) (le_refl 1) hp
        (fun m hm => absurd hm (Nat.not_lt_zero m)) (le_refl (rounds ν))
        with ⟨hloop, hlast⟩ | ⟨hloop, k, -, -, hlast⟩
      · exact .inl ⟨hloop, by simp only [lastcdr, hp, if_true]; exact hlast⟩
      · exact .inr ⟨hloop, place heap p k, by simp only [lastcdr, hp, if_true]; exact hlast⟩

/-- A search that gives up at the slow pointer does so only on a chain that loops, and
after it has treated every cell of it. -/
def Searches (heap : ν → Object (Option ν)) (list : Option ν)
    (r : Except Fault (List ν × Exit ν Unit β)) : Prop :=
  ∃ cells exit, r = .ok (cells, exit) ∧
    (exit = .met () → Looping heap list ∧ ∀ n, ∃ a ∈ cells, place heap list n = some a) ∧
    (Looping heap list → exit = .met () ∨ ∃ b, exit = .returned b)

theorem searches_of_walk (heap : ν → Object (Option ν))
    {body : ν → Option ν → Unit → Except Fault (Step Unit β)}
    (hbody : ∀ a car s, ∃ r, body a car s = .ok r) (list : Option ν) :
    Searches heap list (walk heap body (rounds ν) list false list ()) := by
  obtain ⟨cells, exit, hwalk, hwalked⟩ := walk_start heap hbody list ()
  refine ⟨cells, exit, hwalk, fun hexit => hwalked.met_cover ⟨(), hexit⟩, fun hloop => ?_⟩
  cases exit with
  | returned b => exact .inr ⟨b, rfl⟩
  | ended s q => exact absurd hloop (hwalked.not_looping ⟨s, q, rfl⟩)
  | met s => exact .inl rfl

omit [DecidableEq ν] [Fintype ν] in
/-- What a loop returns, its body has returned. -/
theorem Walked.returned_body {body : ν → Option ν → σ → Except Fault (Step σ β)} {n : ℕ} {s : σ}
    {cells : List ν} {exit : Exit ν σ β} (h : Walked heap body p n s cells exit) {b : β}
    (hexit : exit = .returned b) : ∃ a car s, body a car s = .ok (.ret b) := by
  induction h with
  | ended hn => cases hexit
  | returned hn ha hbody => cases hexit; exact ⟨_, _, _, hbody⟩
  | met hn ha hbody hmeets => cases hexit
  | next hn ha hbody hmeets _ ih => exact ih hexit

omit [DecidableEq ν] [Fintype ν] in
/-- A search that found nothing has passed over every cell of the chain. -/
theorem Walked.passed {body : ν → Option ν → Unit → Except Fault (Step Unit β)} {cells : List ν}
    {exit : Exit ν Unit β} (h : Walked heap body p 0 () cells exit)
    (hexit : ∀ b, exit ≠ .returned b) {n : ℕ} {a : ν} {car cdr : Option ν}
    (hn : place heap p n = some a) (ha : heap a = .cons car cdr) :
    body a car () = .ok (.go ()) := by
  have hmem : a ∈ cells := by
    obtain ⟨b, hb, heq⟩ : ∃ b ∈ cells, place heap p n = some b := by
      cases exit with
      | returned b => exact absurd rfl (hexit b)
      | ended s q => exact h.ended_cover ⟨s, q, rfl⟩ (Nat.zero_le n) (hn ▸ isCons_some ha)
      | met s => exact (h.met_cover ⟨s, rfl⟩).2 n
    rw [hn, Option.some.injEq] at heq
    exact heq ▸ hb
  obtain ⟨car', cdr', s, s', ha', hbody⟩ := h.gone hexit a hmem
  rw [ha] at ha'
  cases ha'
  exact hbody

theorem assocKey_ok (heap : ν → Object (Option ν)) (k p : Option ν) :
    ∃ ans, assocKey heap k p = .ok ans := by
  unfold assocKey
  split
  · exact (eqTest_ok heap _ k).imp fun _ h => h.1
  · exact ⟨false, rfl⟩

omit [DecidableEq ν] [Fintype ν] in
/-- The body of a search. -/
theorem search_ok {test : Option ν → Except Fault Bool} (htest : ∀ car, ∃ ans, test car = .ok ans)
    (found : ν → Option ν → β) (a : ν) (car : Option ν) (s : Unit) :
    ∃ r, (do if ← test car then .ok (.ret (found a car)) else .ok (.go s) :
        Except Fault (Step Unit β)) = .ok r ∧ (r = .go () ↔ test car = .ok false) := by
  obtain ⟨ans, hans⟩ := htest car
  cases ans with
  | false => exact ⟨.go s, by rw [hans]; rfl, by simp [hans]⟩
  | true => exact ⟨.ret (found a car), by rw [hans]; rfl, by simp [hans]⟩

/-- What a search has found. -/
def Exit.found : Exit ν Unit β → Option β
  | .returned b => some b
  | _ => none

/-- **`member` ends; where it finds nothing, no element of the list is equal.** -/
theorem member_ok (heap : ν → Object (Option ν)) (elem list : Option ν) :
    ∃ r, member heap elem list = .ok r ∧ (r = none → ∀ n a car cdr, place heap list n = some a →
      heap a = .cons car cdr → eqTest heap car elem = .ok false) := by
  have htest : ∀ car, ∃ ans, eqTest heap car elem = .ok ans :=
    fun car => (eqTest_ok heap car elem).imp fun _ h => h.1
  obtain ⟨cells, exit, hwalk, hwalked⟩ := walk_start heap
    (fun a car s => (search_ok htest (fun a _ => a) a car s).imp fun _ h => h.1) list ()
  refine ⟨exit.found, ?_, ?_⟩
  · refine (congrArg (· >>= _) hwalk).trans ?_
    cases exit <;> rfl
  · intro hnone n a car cdr hn ha
    have hgo := hwalked.passed (by rintro b rfl; cases hnone) hn ha
    obtain ⟨r, hr, hiff⟩ := search_ok htest (fun a _ => a) a car ()
    rw [hr, Except.ok.injEq] at hgo
    exact hiff.mp hgo

/-- **`assoc` ends; where it finds nothing, no key of the list is equal.** -/
theorem assoc_ok (heap : ν → Object (Option ν)) (k l : Option ν) :
    ∃ r, assoc heap k l = .ok r ∧ (r = none → ∀ n a car cdr, place heap l n = some a →
      heap a = .cons car cdr → assocKey heap k car = .ok false) := by
  have htest := assocKey_ok heap k
  obtain ⟨cells, exit, hwalk, hwalked⟩ := walk_start heap
    (fun a car s => (search_ok htest (fun _ p => p) a car s).imp fun _ h => h.1) l ()
  refine ⟨exit.found.join, ?_, ?_⟩
  · refine (congrArg (· >>= _) hwalk).trans ?_
    cases exit <;> rfl
  · intro hnone n a car cdr hn ha
    have hreturned : ∀ p, exit ≠ .returned p := by
      rintro p rfl
      -- only a cell is returned
      obtain ⟨a', p', s', hbody⟩ := hwalked.returned_body rfl
      obtain ⟨ans, hans⟩ := htest p'
      cases ans with
      | false => rw [hans] at hbody; cases hbody
      | true =>
          rw [hans] at hbody
          have hp : p' = p := by injection hbody with h; injection h
          rw [hp, show p = none from hnone] at hans
          cases hans
    obtain ⟨r, hr, hiff⟩ := search_ok htest (fun _ p => p) a car ()
    have hgo := hwalked.passed hreturned hn ha
    rw [hr, Except.ok.injEq] at hgo
    exact hiff.mp hgo

/-- A function of a list that raises this error when the chain loops, and returns when
it does not. -/
def Reports {α : Type} (loops : Prop) (text : String) (r : Except Fault α) : Prop :=
  (loops → r = .error (.error text)) ∧ (¬loops → ∃ a, r = .ok a)

omit [DecidableEq ν] [Fintype ν] in
theorem reports_of_cases {α : Type} {loops : Prop} {text : String} {r : Except Fault α}
    (h : (loops ∧ r = .error (.error text)) ∨ (¬loops ∧ ∃ a, r = .ok a)) :
    Reports loops text r :=
  ⟨fun hl => h.elim And.right fun h' => absurd hl h'.1,
    fun hl => h.elim (fun h' => absurd h'.1 hl) And.right⟩

theorem append_ok (heap : ν → Object (Option ν)) (l1 l2 : Option ν) :
    Reports (Looping heap l1) "Cannot append after a circular list" (append heap l1 l2) := by
  obtain ⟨cells, exit, hwalk, hwalked⟩ := walk_start (β := Empty) heap
    (fun _ car (answer : List (Option ν)) => ⟨.go (answer ++ [car]), rfl⟩) l1 []
  apply reports_of_cases
  rw [← hwalked.met_iff (fun b => b.elim)]
  cases exit with
  | returned b => exact b.elim
  | ended answer q =>
      exact .inr ⟨by simp, ⟨answer, l2⟩, (congrArg (· >>= _) hwalk).trans rfl⟩
  | met answer => exact .inl ⟨⟨answer, rfl⟩, (congrArg (· >>= _) hwalk).trans rfl⟩

theorem reverse_ok (heap : ν → Object (Option ν)) (l : Option ν) :
    Reports (Looping heap l) "Cannot reverse a circular list" (reverse heap l) := by
  obtain ⟨cells, exit, hwalk, hwalked⟩ := walk_start (β := Empty) heap
    (fun _ car (r : List (Option ν)) => ⟨.go (car :: r), rfl⟩) l []
  apply reports_of_cases
  rw [← hwalked.met_iff (fun b => b.elim)]
  cases exit with
  | returned b => exact b.elim
  | ended r q => exact .inr ⟨by simp, ⟨r, none⟩, (congrArg (· >>= _) hwalk).trans rfl⟩
  | met r => exact .inl ⟨⟨r, rfl⟩, (congrArg (· >>= _) hwalk).trans rfl⟩

/-- **Circular lists are found exactly**: all these functions end; `length` gives -1 and
the others raise their error when the chain loops and only then; `member` and
`assoc` give up only on a chain that loops, after they have tried every cell. -/
theorem circular_lists_found (heap : ν → Object (Option ν)) (p q : Option ν) :
    (∃ i, length heap p = .ok i ∧ (i = -1 ↔ Looping heap p)) ∧
      Reports (Looping heap p) "circular list has no last element" (last heap p) ∧
      Reports (Looping heap p) "circular list has no last element" (lastcdr heap p) ∧
      Reports (Looping heap p) "Cannot append after a circular list" (append heap p q) ∧
      Reports (Looping heap p) "Cannot reverse a circular list" (reverse heap p) ∧
      (Searches heap p (memberWalk heap q p) ∧ ∃ r, member heap q p = .ok r ∧
        (r = none → ∀ n a car cdr, place heap p n = some a → heap a = .cons car cdr →
          eqTest heap car q = .ok false)) ∧
      Searches heap p (assocWalk heap q p) ∧ ∃ r, assoc heap q p = .ok r ∧
        (r = none → ∀ n a car cdr, place heap p n = some a → heap a = .cons car cdr →
          assocKey heap q car = .ok false) := by
  have heq : ∀ car, ∃ ans, eqTest heap car q = .ok ans :=
    fun car => (eqTest_ok heap car q).imp fun _ h => h.1
  have hmember := searches_of_walk heap
    (fun a car s => (search_ok heq (fun a _ => a) a car s).imp fun _ h => h.1) p
  have hassoc := searches_of_walk heap
    (fun a car s => (search_ok (assocKey_ok heap q) (fun _ p => p) a car s).imp
      fun _ h => h.1) p
  obtain ⟨i, hi, hloop, -⟩ := length_ok heap p
  exact ⟨⟨i, hi, hloop⟩, reports_of_cases (last_ok heap p), reports_of_cases (lastcdr_ok heap p),
    append_ok heap p q, reverse_ok heap p, ⟨hmember, member_ok heap q p⟩, hassoc, assoc_ok heap q p⟩

end Circular

end Lush.Lists
