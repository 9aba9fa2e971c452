import Mathlib

/-!
# Balanced trees

Search trees with balance fields, in which the difference of the heights of the two subtrees is
at most one (`Avl`).  The two sides are treated alike: a rotation brings up the child of one side.
`insert` and `erase` go down to the place of a key, and put the balance fields right on the way
up, as long as the subtree below has changed its height.

An element can be made of a place and a content.  `erase` keeps the place of an element with two
subtrees, and gives it the content of the element before.
-/

namespace Lush.Balanced

inductive Side where
  | left
  | right
  deriving DecidableEq

def Side.other : Side → Side
  | left => right
  | right => left

@[simp]
theorem Side.other_other (s : Side) : s.other.other = s := by cases s <;> rfl

@[simp]
theorem Side.other_ne (s : Side) : s.other ≠ s := by cases s <;> exact Side.noConfusion

@[simp]
theorem Side.ne_other (s : Side) : s ≠ s.other := s.other_ne.symm

theorem Side.eq_or_eq_other (u s : Side) : s = u ∨ s = u.other := by
  cases u <;> cases s <;> decide

/-- The subtree that is higher by one, if any. -/
inductive Tilt where
  | even
  | heavy (s : Side)
  deriving DecidableEq

/-- The balance field says how the height `m` of side `u` and the height `n` of the other side
differ. -/
def Tilt.Weighs (u : Side) (m n : ℕ) : Tilt → Prop
  | even => m = n
  | heavy s => if s = u then m = n + 1 else n = m + 1

inductive AvlTree (α : Type) where
  | nil
  | node (bf : Tilt) (a : α) (sub : Side → AvlTree α)

namespace AvlTree

variable {α : Type}

def isNil : AvlTree α → Bool
  | nil => true
  | node _ _ _ => false

def height : AvlTree α → ℕ
  | nil => 0
  | node _ _ sub => max (sub .left).height (sub .right).height + 1

/-- The elements in order. -/
def toList : AvlTree α → List α
  | nil => []
  | node _ a sub => (sub .left).toList ++ a :: (sub .right).toList

/-- The balance fields are right. -/
def Avl : AvlTree α → Prop
  | nil => True
  | node bf _ sub => (sub .left).Avl ∧ (sub .right).Avl ∧
      bf.Weighs .left (sub .left).height (sub .right).height

/-- The child of side `u` comes up. -/
def rotate (u : Side) (bt bl : Tilt) (a : α) (sub : Side → AvlTree α) : AvlTree α :=
  match sub u with
  | nil => node bt a sub
  | node _ l subl => node bl l
      (Function.update subl u.other (node bt a (Function.update sub u (subl u.other))))

/-- The grandchild between comes up. -/
def rotateTwice (u : Side) (a : α) (sub : Side → AvlTree α) : AvlTree α :=
  match sub u with
  | nil => node .even a sub
  | node _ l subl => match subl u.other with
    | nil => node .even a sub
    | node br _ _ => rotate u (if br = .heavy u then .heavy u.other else .even) .even a
        (Function.update sub u
          (rotate u.other (if br = .heavy u.other then .heavy u else .even) br l subl))

/-- The subtree of side `s` has become `t`, which is higher by one if it `grew`. -/
def grow (s : Side) (bf : Tilt) (a : α) (sub : Side → AvlTree α) (t : AvlTree α) (grew : Bool) :
    AvlTree α × Bool :=
  let sub := Function.update sub s t
  if grew then
    match bf with
    | .even => (node (.heavy s) a sub, true)
    | .heavy s' =>
        if s' = s then
          match t with
          | nil => (node bf a sub, false)
          | node bl _ _ =>
              (if bl = .heavy s then rotate s .even .even a sub else rotateTwice s a sub, false)
        else (node .even a sub, false)
  else (node bf a sub, false)

/-- The subtree of side `s` has become `t`, which is lower by one if it `shrank`. -/
def shrink (s : Side) (bf : Tilt) (a : α) (sub : Side → AvlTree α) (t : AvlTree α) (shrank : Bool) :
    AvlTree α × Bool :=
  let sub := Function.update sub s t
  if shrank then
    match bf with
    | .even => (node (.heavy s.other) a sub, false)
    | .heavy s' =>
        if s' = s then (node .even a sub, true)
        else
          match sub s.other with
          | nil => (node bf a sub, false)
          | node .even _ _ => (rotate s.other (.heavy s.other) (.heavy s) a sub, false)
          | node (.heavy u) _ _ =>
              (if u = s then rotateTwice s.other a sub else rotate s.other .even .even a sub, true)
  else (node bf a sub, false)

variable {K : Type} [LinearOrder K]

/-- A new element, unless there is one with its key. -/
def insert (key : α → K) (new : α) : AvlTree α → AvlTree α × Bool
  | nil => (node .even new fun _ => nil, true)
  | node bf a sub =>
      if key new = key a then (node bf a sub, false)
      else if key new < key a then
        let r := insert key new (sub .left)
        grow .left bf a sub r.1 r.2
      else
        let r := insert key new (sub .right)
        grow .right bf a sub r.1 r.2

/-- The last element is taken out. -/
def eraseLast : AvlTree α → AvlTree α × Bool
  | nil => (nil, false)
  | node bf a sub =>
      if (sub .right).isNil then (sub .left, true)
      else
        let r := eraseLast (sub .right)
        shrink .right bf a sub r.1 r.2

/-- The last element. -/
def last (b : α) : AvlTree α → α
  | nil => b
  | node _ a sub => (sub .right).last a

/-- The element with key `k` is taken out.  Where it has two subtrees, `give` gives its place the
content of the element before. -/
def erase (key : α → K) (give : α → α → α) (k : K) : AvlTree α → AvlTree α × Bool
  | nil => (nil, false)
  | node bf a sub =>
      if k < key a then
        let r := erase key give k (sub .left)
        shrink .left bf a sub r.1 r.2
      else if key a < k then
        let r := erase key give k (sub .right)
        shrink .right bf a sub r.1 r.2
      else if (sub .left).isNil then (sub .right, true)
      else if (sub .right).isNil then (sub .left, true)
      else
        let r := eraseLast (sub .left)
        shrink .left bf (give a ((sub .left).last a)) sub r.1 r.2

/-- The element with key `k`, and the one that gives it its content. -/
def taken (key : α → K) (k : K) (b : α) : AvlTree α → α × Option α
  | nil => (b, none)
  | node _ a sub =>
      if k < key a then taken key k b (sub .left)
      else if key a < k then taken key k b (sub .right)
      else if (sub .left).isNil then (a, none)
      else if (sub .right).isNil then (a, none)
      else (a, some ((sub .left).last a))

/-! ## Heights -/

end AvlTree

namespace Tilt

variable {u : Side} {m n : ℕ}

@[simp]
theorem weighs_even : Weighs u m n even ↔ m = n := Iff.rfl

@[simp]
theorem weighs_heavy : Weighs u m n (heavy u) ↔ m = n + 1 := by rw [Weighs, if_pos rfl]

@[simp]
theorem weighs_heavy_other : Weighs u m n (heavy u.other) ↔ n = m + 1 := by
  rw [Weighs, if_neg u.other_ne]

theorem weighs_other {bf : Tilt} : bf.Weighs u.other n m ↔ bf.Weighs u m n := by
  cases bf with
  | even => exact eq_comm
  | heavy s =>
      obtain rfl | rfl := u.eq_or_eq_other s
      · rw [weighs_heavy, Weighs, if_neg s.ne_other]
      · rw [weighs_heavy, weighs_heavy_other]

theorem weighs_other_heavy : Weighs u.other m n (heavy u) ↔ n = m + 1 := by
  rw [weighs_other, weighs_heavy]

/-- The grandchild between gives one subtree to each side. -/
theorem weighs_between {br : Tilt} {k : ℕ} (h : br.Weighs u m n) (hmax : max m n = k) :
    Weighs u k m (if br = heavy u.other then heavy u else even) ∧
      Weighs u n k (if br = heavy u then heavy u.other else even) := by
  cases br with
  | even =>
      rw [weighs_even] at h
      rw [if_neg Tilt.noConfusion, if_neg Tilt.noConfusion, weighs_even, weighs_even]
      omega
  | heavy s =>
      obtain rfl | rfl := u.eq_or_eq_other s
      · rw [weighs_heavy] at h
        rw [if_neg fun he => s.ne_other (heavy.inj he), if_pos rfl, weighs_even,
          weighs_heavy_other]
        omega
      · rw [weighs_heavy_other] at h
        rw [if_pos rfl, if_neg fun he => u.other_ne (heavy.inj he), weighs_heavy, weighs_even]
        omega

/-- The Fibonacci numbers of two heights that differ by one at most. -/
theorem Weighs.fib_le {bf : Tilt} (h : bf.Weighs u m n) :
    Nat.fib (max m n + 3) ≤ Nat.fib (m + 2) + Nat.fib (n + 2) := by
  have hclose : m ≤ n + 1 ∧ n ≤ m + 1 := by
    cases bf with
    | even =>
        rw [weighs_even] at h
        omega
    | heavy s =>
        rw [Weighs] at h
        split_ifs at h
        · omega
        · omega
  have hsum : Nat.fib (max m n + 3) = Nat.fib (max m n + 1) + Nat.fib (max m n + 2) :=
    Nat.fib_add_two
  have hlow : Nat.fib (max m n + 1) ≤ Nat.fib (min m n + 2) := Nat.fib_mono (by omega)
  obtain hle | hle := le_total m n
  · rw [max_eq_right hle, min_eq_left hle] at *
    omega
  · rw [max_eq_left hle, min_eq_right hle] at *
    omega

end Tilt

namespace AvlTree

variable {α : Type} {bf bt bl : Tilt} {a : α} {sub : Side → AvlTree α} {t : AvlTree α}

theorem height_node (u : Side) :
    (node bf a sub).height = max (sub u).height (sub u.other).height + 1 := by
  cases u with
  | left => rfl
  | right => exact congrArg (· + 1) (max_comm _ _)

theorem avl_node (u : Side) : (node bf a sub).Avl ↔
    (sub u).Avl ∧ (sub u.other).Avl ∧ bf.Weighs u (sub u).height (sub u.other).height := by
  cases u with
  | left => rfl
  | right =>
      rw [← Tilt.weighs_other, and_left_comm]
      rfl

/-- A node in which the subtree of one side is replaced. -/
theorem avl_update (u : Side) : (node bf a (Function.update sub u t)).Avl ↔
    t.Avl ∧ (sub u.other).Avl ∧ bf.Weighs u t.height (sub u.other).height := by
  rw [avl_node u, Function.update_self, Function.update_of_ne u.other_ne]

theorem height_update (u : Side) : (node bf a (Function.update sub u t)).height =
    max t.height (sub u.other).height + 1 := by
  rw [height_node u, Function.update_self, Function.update_of_ne u.other_ne]

theorem exists_node (h : 0 < t.height) : ∃ bf a sub, t = node bf a sub := by
  cases t with
  | nil => cases h
  | node bf a sub => exact ⟨bf, a, sub, rfl⟩

theorem ne_nil_iff : t ≠ nil ↔ ∃ bf a sub, t = node bf a sub := by
  cases t with
  | nil => exact iff_of_false (fun h => h rfl) fun ⟨_, _, _, h⟩ => by cases h
  | node bf a sub => exact iff_of_true (fun h => by cases h) ⟨bf, a, sub, rfl⟩

theorem isNil_iff : t.isNil ↔ t = nil := by
  cases t with
  | nil => exact iff_of_true rfl rfl
  | node bf a sub => exact iff_of_false Bool.noConfusion fun h => (by cases h)

/-- A rotation of a child that weighs as much as it has to. -/
theorem rotate_spec (bt bl : Tilt) (a : α) {u : Side} {b : Tilt} {l : α}
    {subl : Side → AvlTree α} (h : sub u = node b l subl)
    (hx : (subl u).Avl) (hy : (subl u.other).Avl) (hz : (sub u.other).Avl)
    (ht : bt.Weighs u (subl u.other).height (sub u.other).height)
    (hl : bl.Weighs u (subl u).height
      (max (subl u.other).height (sub u.other).height + 1)) :
    (rotate u bt bl a sub).Avl ∧ (rotate u bt bl a sub).height =
      max (subl u).height (max (subl u.other).height (sub u.other).height + 1) + 1 := by
  rw [rotate, h]
  dsimp only
  rw [avl_node u, height_node u, Function.update_self, Function.update_of_ne u.ne_other,
    avl_update, height_update]
  exact ⟨⟨hx, ⟨hy, hz, ht⟩, hl⟩, rfl⟩

/-- A child that is higher by two, towards the other side. -/
theorem rotateTwice_spec {u : Side} {l : α} {subl : Side → AvlTree α}
    (h : sub u = node (.heavy u.other) l subl) (hchild : (sub u).Avl) (hz : (sub u.other).Avl)
    (hheight : (sub u).height = (sub u.other).height + 2) :
    (rotateTwice u a sub).Avl ∧ (rotateTwice u a sub).height = (sub u).height := by
  rw [h, avl_node u, Tilt.weighs_heavy_other] at hchild
  obtain ⟨hx, hmiddle, hhigh⟩ := hchild
  rw [h, height_node u] at hheight
  obtain ⟨br, r, subr, hr⟩ := exists_node (t := subl u.other) (by omega)
  rw [hr] at hmiddle hhigh hheight
  obtain ⟨hy1, hy2, hweighs⟩ := (avl_node u).mp hmiddle
  rw [height_node u] at hhigh hheight
  let tl : Tilt := if br = .heavy u.other then .heavy u else .even
  let tt : Tilt := if br = .heavy u then .heavy u.other else .even
  let subr' := Function.update subr u (node tl l (Function.update subl u.other (subr u)))
  have hinner : rotate u.other tl br l subl = node br r subr' := by
    rw [rotate, hr]
    dsimp only
    rw [Side.other_other]
  have htwice : rotateTwice u a sub =
      rotate u tt .even a (Function.update sub u (node br r subr')) := by
    rw [rotateTwice, h]
    dsimp only
    rw [hr]
    dsimp only
    rw [hinner]
  have hup : subr' u = node tl l (Function.update subl u.other (subr u)) := Function.update_self ..
  have hother : subr' u.other = subr u.other := Function.update_of_ne u.other_ne ..
  have hside : (Function.update sub u (node br r subr')) u.other = sub u.other :=
    Function.update_of_ne u.other_ne ..
  obtain ⟨hweighsl, hweighst⟩ := Tilt.weighs_between (k := (subl u).height) hweighs (by omega)
  have hleft : (subr' u).Avl := by
    rw [hup, avl_update, Side.other_other]
    exact ⟨hy1, hx, Tilt.weighs_other.mpr hweighsl⟩
  have hleftHeight : (subr' u).height = (subl u).height + 1 := by
    rw [hup, height_update, Side.other_other]
    omega
  have hroot : (Function.update sub u (node br r subr')) u = node br r subr' :=
    Function.update_self ..
  obtain ⟨havl, hresult⟩ := rotate_spec tt .even a hroot hleft
    (hother ▸ hy2) (hside ▸ hz)
    (by rw [hother, hside, show (sub u.other).height = (subl u).height by omega]; exact hweighst)
    (by rw [hother, hside, Tilt.weighs_even]; omega)
  rw [htwice, hresult, hother, hside, h, height_node u, hr, height_node u]
  exact ⟨havl, by omega⟩

/-! ## Steps up -/

theorem grow_false (s : Side) (bf : Tilt) (a : α) (sub : Side → AvlTree α) (t : AvlTree α) :
    grow s bf a sub t false = (node bf a (Function.update sub s t), false) := rfl

theorem grow_even (s : Side) (a : α) (sub : Side → AvlTree α) (t : AvlTree α) :
    grow s .even a sub t true = (node (.heavy s) a (Function.update sub s t), true) := rfl

theorem grow_heavy_other (s : Side) (a : α) (sub : Side → AvlTree α) (t : AvlTree α) :
    grow s (.heavy s.other) a sub t true = (node .even a (Function.update sub s t), false) :=
  if_neg s.other_ne

theorem grow_heavy (s : Side) (a : α) (sub : Side → AvlTree α) (bl : Tilt) (l : α)
    (subl : Side → AvlTree α) :
    grow s (.heavy s) a sub (node bl l subl) true =
      (if bl = .heavy s then rotate s .even .even a (Function.update sub s (node bl l subl))
        else rotateTwice s a (Function.update sub s (node bl l subl)), false) :=
  if_pos rfl

/-- A new leaf, or a tree that is heavy on one side. -/
def Skewed (t : AvlTree α) : Prop := ∀ a sub, t = node .even a sub → t.height = 1

/-- A child that grew, and is higher by two now. -/
theorem raise_spec {s : Side} {l : α} {subl : Side → AvlTree α} (ht : (node bl l subl).Avl)
    (hother : (sub s.other).Avl) (hheight : (node bl l subl).height = (sub s.other).height + 2)
    (hskew : (node bl l subl).Skewed) :
    (grow s (.heavy s) a sub (node bl l subl) true).1.Avl ∧
      (grow s (.heavy s) a sub (node bl l subl) true).1.height = (node bl l subl).height := by
  have hup := Function.update_self s (node bl l subl) sub
  have hside := Function.update_of_ne s.other_ne (node bl l subl) sub
  rw [grow_heavy]
  cases bl with
  | even =>
      have := hskew l subl rfl
      omega
  | heavy s' =>
      obtain rfl | rfl := s.eq_or_eq_other s'
      · obtain ⟨hx, hy, hweighs⟩ := (avl_node s').mp ht
        rw [Tilt.weighs_heavy] at hweighs
        rw [height_node s'] at hheight
        obtain ⟨havl, hresult⟩ := rotate_spec .even .even a hup hx hy
          (hside ▸ hother) (by rw [hside, Tilt.weighs_even]; omega)
          (by rw [hside, Tilt.weighs_even]; omega)
        rw [if_pos rfl, hresult, hside, height_node s']
        exact ⟨havl, by omega⟩
      · rw [if_neg fun he => s.other_ne (Tilt.heavy.inj he)]
        obtain ⟨havl, hresult⟩ := rotateTwice_spec (a := a) hup (hup.symm ▸ ht) (hside ▸ hother)
          (by rw [hup, hside, hheight])
        exact ⟨havl, by rw [hresult, hup]⟩

/-- The step up after a subtree grew. -/
theorem grow_spec {s : Side} {grew : Bool} (h : (node bf a sub).Avl) (ht : t.Avl)
    (hheight : t.height = (sub s).height + grew.toNat) (hskew : grew → t.Skewed) :
    (grow s bf a sub t grew).1.Avl ∧
      (grow s bf a sub t grew).1.height =
        (node bf a sub).height + (grow s bf a sub t grew).2.toNat ∧
      ((grow s bf a sub t grew).2 → (grow s bf a sub t grew).1.Skewed) := by
  obtain ⟨hs, hother, hweighs⟩ := (avl_node s).mp h
  rw [height_node s]
  cases grew with
  | false =>
      rw [Bool.toNat_false, Nat.add_zero] at hheight
      rw [grow_false, avl_update, height_update, hheight]
      exact ⟨⟨ht, hother, hweighs⟩, rfl, Bool.noConfusion⟩
  | true =>
      rw [Bool.toNat_true] at hheight
      cases bf with
      | even =>
          rw [Tilt.weighs_even] at hweighs
          rw [grow_even, avl_update, height_update, Tilt.weighs_heavy, Bool.toNat_true]
          exact ⟨⟨ht, hother, by omega⟩, by omega, fun _ _ _ he => (by cases he)⟩
      | heavy s' =>
          obtain rfl | rfl := s.eq_or_eq_other s'
          · rw [Tilt.weighs_heavy] at hweighs
            obtain ⟨bl, l, subl, rfl⟩ := exists_node (t := t) (by omega)
            obtain ⟨havl, hresult⟩ := raise_spec (a := a) ht hother (by omega) (hskew rfl)
            have hsnd := congrArg Prod.snd (grow_heavy s' a sub bl l subl)
            rw [hresult, hsnd, Bool.toNat_false]
            exact ⟨havl, by omega, Bool.noConfusion⟩
          · rw [Tilt.weighs_heavy_other] at hweighs
            rw [grow_heavy_other, avl_update, height_update, Tilt.weighs_even, Bool.toNat_false]
            exact ⟨⟨ht, hother, by omega⟩, by omega, Bool.noConfusion⟩

/-- The nodes that a rotation after a growth needs. -/
theorem exists_grown {s : Side} (h : (node bf a sub).Avl) (ht : t.Avl)
    (hheight : t.height = (sub s).height + 1) (hskew : t.Skewed) (hbf : bf = .heavy s) :
    ∃ bl l subl, t = node bl l subl ∧ (bl ≠ .heavy s → subl s.other ≠ nil) := by
  obtain ⟨-, -, hweighs⟩ := (avl_node s).mp h
  rw [hbf, Tilt.weighs_heavy] at hweighs
  obtain ⟨bl, l, subl, rfl⟩ := exists_node (t := t) (by omega)
  refine ⟨bl, l, subl, rfl, fun hbl hnil => ?_⟩
  obtain ⟨-, -, hweighsl⟩ := (avl_node s).mp ht
  cases bl with
  | even =>
      have := hskew l subl rfl
      omega
  | heavy s' =>
      obtain rfl | rfl := s.eq_or_eq_other s'
      · exact hbl rfl
      · rw [Tilt.weighs_heavy_other, hnil] at hweighsl
        exact absurd hweighsl (Nat.succ_ne_zero _).symm

/-- The nodes that a rotation after a loss needs. -/
theorem exists_sibling {s : Side} (h : (node bf a sub).Avl) (hbf : bf = .heavy s.other) :
    ∃ bc c subc, sub s.other = node bc c subc ∧ (bc = .heavy s → subc s ≠ nil) := by
  obtain ⟨-, hother, hweighs⟩ := (avl_node s).mp h
  rw [hbf, Tilt.weighs_heavy_other] at hweighs
  obtain ⟨bc, c, subc, hc⟩ := exists_node (t := sub s.other) (by omega)
  refine ⟨bc, c, subc, hc, fun hbc hnil => ?_⟩
  rw [hc, hbc] at hother
  obtain ⟨-, -, hweighsc⟩ := (avl_node s).mp hother
  rw [Tilt.weighs_heavy, hnil] at hweighsc
  exact absurd hweighsc (Nat.succ_ne_zero _).symm

theorem shrink_false (s : Side) (bf : Tilt) (a : α) (sub : Side → AvlTree α) (t : AvlTree α) :
    shrink s bf a sub t false = (node bf a (Function.update sub s t), false) := rfl

theorem shrink_even (s : Side) (a : α) (sub : Side → AvlTree α) (t : AvlTree α) :
    shrink s .even a sub t true = (node (.heavy s.other) a (Function.update sub s t), false) := rfl

theorem shrink_heavy (s : Side) (a : α) (sub : Side → AvlTree α) (t : AvlTree α) :
    shrink s (.heavy s) a sub t true = (node .even a (Function.update sub s t), true) :=
  if_pos rfl

theorem shrink_heavy_other {s : Side} {bc : Tilt} {c : α} {subc : Side → AvlTree α}
    (h : sub s.other = node bc c subc) (a : α) (t : AvlTree α) :
    shrink s (.heavy s.other) a sub t true =
      (if bc = .even then
          rotate s.other (.heavy s.other) (.heavy s) a (Function.update sub s t)
        else if bc = .heavy s then rotateTwice s.other a (Function.update sub s t)
        else rotate s.other .even .even a (Function.update sub s t), bc != .even) := by
  refine (if_neg s.other_ne).trans ?_
  rw [Function.update_of_ne s.other_ne, h]
  cases bc with
  | even => rfl
  | heavy u =>
      simp only [reduceCtorEq, if_false, Tilt.heavy.injEq]
      rfl

/-- A subtree whose sibling is higher by two now. -/
theorem sink_spec {s : Side} (hother : (sub s.other).Avl) (ht : t.Avl)
    (hheight : (sub s.other).height = t.height + 2) :
    (shrink s (.heavy s.other) a sub t true).1.Avl ∧
      (shrink s (.heavy s.other) a sub t true).1.height +
        (shrink s (.heavy s.other) a sub t true).2.toNat = (sub s.other).height + 1 := by
  obtain ⟨bc, c, subc, hc⟩ := exists_node (t := sub s.other) (by omega)
  have hup : (Function.update sub s t) s.other = node bc c subc := by
    rw [Function.update_of_ne s.other_ne, hc]
  have hside : (Function.update sub s t) s.other.other = t := by
    rw [Side.other_other, Function.update_self]
  have ht' : ((Function.update sub s t) s.other.other).Avl := by rwa [hside]
  rw [shrink_heavy_other hc]
  rw [hc] at hother hheight ⊢
  obtain ⟨hx, hy, hweighs⟩ := (avl_node s.other).mp hother
  rw [height_node s.other] at hheight ⊢
  cases bc with
  | even =>
      rw [Tilt.weighs_even] at hweighs
      obtain ⟨havl, hresult⟩ := rotate_spec (.heavy s.other) (.heavy s) a hup hx
        hy ht' (by rw [hside, Tilt.weighs_heavy]; omega)
        (by rw [hside, Tilt.weighs_other_heavy]; omega)
      rw [if_pos rfl, hresult, hside]
      exact ⟨havl, by rw [bne_self_eq_false, Bool.toNat_false]; omega⟩
  | heavy u =>
      rw [if_neg Tilt.noConfusion]
      obtain rfl | rfl := s.eq_or_eq_other u
      · rw [if_pos rfl]
        have hchild : (Function.update sub u t) u.other =
            node (.heavy u.other.other) c subc := by rw [hup, Side.other_other]
        obtain ⟨havl, hresult⟩ := rotateTwice_spec (a := a) hchild (hup.symm ▸ hother)
          ht' (by rw [hup, hside, height_node u.other, hheight])
        rw [hresult, hup, height_node u.other]
        exact ⟨havl, rfl⟩
      · rw [Tilt.weighs_heavy] at hweighs
        obtain ⟨havl, hresult⟩ := rotate_spec .even .even a hup hx hy
          ht' (by rw [hside, Tilt.weighs_even]; omega)
          (by rw [hside, Tilt.weighs_even]; omega)
        rw [if_neg fun he => s.other_ne (Tilt.heavy.inj he), hresult, hside]
        exact ⟨havl, by
          rw [show (Tilt.heavy s.other != Tilt.even) = true from rfl, Bool.toNat_true]
          omega⟩

/-- The step up after a subtree shrank. -/
theorem shrink_spec {s : Side} {a' : α} {shrank : Bool} (h : (node bf a sub).Avl) (ht : t.Avl)
    (hheight : t.height + shrank.toNat = (sub s).height) :
    (shrink s bf a' sub t shrank).1.Avl ∧
      (shrink s bf a' sub t shrank).1.height + (shrink s bf a' sub t shrank).2.toNat =
        (node bf a sub).height := by
  obtain ⟨hs, hother, hweighs⟩ := (avl_node s).mp h
  rw [height_node s]
  cases shrank with
  | false =>
      rw [Bool.toNat_false, Nat.add_zero] at hheight
      rw [shrink_false, avl_update, height_update, hheight]
      exact ⟨⟨ht, hother, hweighs⟩, rfl⟩
  | true =>
      rw [Bool.toNat_true] at hheight
      cases bf with
      | even =>
          rw [Tilt.weighs_even] at hweighs
          rw [shrink_even, avl_update, height_update, Tilt.weighs_heavy_other, Bool.toNat_false]
          exact ⟨⟨ht, hother, by omega⟩, by omega⟩
      | heavy s' =>
          obtain rfl | rfl := s.eq_or_eq_other s'
          · rw [Tilt.weighs_heavy] at hweighs
            rw [shrink_heavy, avl_update, height_update, Tilt.weighs_even, Bool.toNat_true]
            exact ⟨⟨ht, hother, by omega⟩, by omega⟩
          · rw [Tilt.weighs_heavy_other] at hweighs
            obtain ⟨havl, hresult⟩ := sink_spec (a := a') hother ht (by omega)
            exact ⟨havl, by omega⟩

/-! ## Balance -/

variable {K : Type} [LinearOrder K] {key : α → K} {give : α → α → α} {new b : α} {k : K}

theorem insert_avl (key : α → K) (new : α) (h : t.Avl) : (insert key new t).1.Avl ∧
    (insert key new t).1.height = t.height + (insert key new t).2.toNat ∧
    ((insert key new t).2 → (insert key new t).1.Skewed) := by
  induction t with
  | nil => exact ⟨⟨trivial, trivial, rfl⟩, rfl, fun _ _ _ _ => rfl⟩
  | node bf a sub ih =>
      rw [insert]
      split_ifs
      · exact ⟨h, rfl, fun hgrew => (by cases hgrew)⟩
      · obtain ⟨havl, hheight, hskew⟩ := ih .left h.1
        exact grow_spec h havl hheight hskew
      · obtain ⟨havl, hheight, hskew⟩ := ih .right h.2.1
        exact grow_spec h havl hheight hskew

theorem eraseLast_avl (h : t.Avl) : (eraseLast t).1.Avl ∧
    (eraseLast t).1.height + (eraseLast t).2.toNat = t.height := by
  induction t with
  | nil => exact ⟨trivial, rfl⟩
  | node bf a sub ih =>
      rw [eraseLast]
      split_ifs with hnil
      · rw [isNil_iff] at hnil
        refine ⟨h.1, ?_⟩
        rw [height, hnil]
        exact congrArg (· + 1) (max_eq_left (Nat.zero_le _)).symm
      · obtain ⟨havl, hheight⟩ := ih .right h.2.1
        exact shrink_spec h havl hheight

theorem erase_avl (h : t.Avl) : (erase key give k t).1.Avl ∧
    (erase key give k t).1.height + (erase key give k t).2.toNat = t.height := by
  induction t with
  | nil => exact ⟨trivial, rfl⟩
  | node bf a sub ih =>
      rw [erase]
      split_ifs with _ _ hleft hright
      · obtain ⟨havl, hheight⟩ := ih .left h.1
        exact shrink_spec h havl hheight
      · obtain ⟨havl, hheight⟩ := ih .right h.2.1
        exact shrink_spec h havl hheight
      · rw [isNil_iff] at hleft
        refine ⟨h.2.1, ?_⟩
        rw [height, hleft]
        exact congrArg (· + 1) (max_eq_right (Nat.zero_le _)).symm
      · rw [isNil_iff] at hright
        refine ⟨h.1, ?_⟩
        rw [height, hright]
        exact congrArg (· + 1) (max_eq_left (Nat.zero_le _)).symm
      · obtain ⟨havl, hheight⟩ := eraseLast_avl h.1
        exact shrink_spec h havl hheight

/-! ## Elements -/

theorem toList_rotate (u : Side) (bt bl bf : Tilt) (a : α) (sub : Side → AvlTree α) :
    (rotate u bt bl a sub).toList = (node bf a sub).toList := by
  rw [rotate]
  split
  · rfl
  · rename_i b l subl h
    cases u with
    | left => simp [toList, Side.other, h]
    | right => simp [toList, Side.other, h]

theorem toList_congr {bf' : Tilt} {sub' : Side → AvlTree α} (h : ∀ s, (sub' s).toList = (sub s).toList) :
    (node bf' a sub').toList = (node bf a sub).toList := by
  rw [toList, toList, h, h]

theorem toList_rotateTwice (u : Side) (bf : Tilt) (a : α) (sub : Side → AvlTree α) :
    (rotateTwice u a sub).toList = (node bf a sub).toList := by
  rw [rotateTwice]
  split
  · rfl
  · rename_i bl l subl hl
    split
    · rfl
    · rw [toList_rotate _ _ _ bf]
      refine toList_congr fun s => ?_
      obtain rfl | hne := eq_or_ne s u
      · rw [Function.update_self, toList_rotate _ _ _ bl, hl]
      · rw [Function.update_of_ne hne]

theorem toList_grow (s : Side) (bf : Tilt) (a : α) (sub : Side → AvlTree α) (t : AvlTree α)
    (grew : Bool) : (grow s bf a sub t grew).1.toList =
      (node bf a (Function.update sub s t)).toList := by
  unfold grow
  split_ifs
  · split
    · rfl
    · split_ifs
      · split
        · rfl
        · dsimp only
          split_ifs
          · exact toList_rotate ..
          · exact toList_rotateTwice ..
      · rfl
  · rfl

theorem toList_shrink (s : Side) (bf : Tilt) (a : α) (sub : Side → AvlTree α) (t : AvlTree α)
    (shrank : Bool) : (shrink s bf a sub t shrank).1.toList =
      (node bf a (Function.update sub s t)).toList := by
  unfold shrink
  split_ifs
  · split
    · rfl
    · split_ifs
      · rfl
      · dsimp only
        split
        · rfl
        · exact toList_rotate ..
        · dsimp only
          split_ifs
          · exact toList_rotateTwice ..
          · exact toList_rotate ..
  · rfl

theorem toList_left : (node bf a (Function.update sub .left t)).toList =
    t.toList ++ a :: (sub .right).toList := rfl

theorem toList_right : (node bf a (Function.update sub .right t)).toList =
    (sub .left).toList ++ a :: t.toList := rfl

/-- The keys increase. -/
def Sorted (key : α → K) (t : AvlTree α) : Prop := t.toList.Pairwise fun a b => key a < key b

theorem Sorted.subtree (h : (node bf a sub).Sorted key) (s : Side) : (sub s).Sorted key := by
  obtain ⟨hl, hr, -⟩ := List.pairwise_append.mp h
  cases s with
  | left => exact hl
  | right => exact (List.pairwise_cons.mp hr).2

theorem Sorted.left_lt (h : (node bf a sub).Sorted key) {c : α} (hc : c ∈ (sub .left).toList) :
    key c < key a := (List.pairwise_append.mp h).2.2 c hc a List.mem_cons_self

theorem Sorted.lt_right (h : (node bf a sub).Sorted key) {c : α} (hc : c ∈ (sub .right).toList) :
    key a < key c := (List.pairwise_cons.mp (List.pairwise_append.mp h).2.1).1 c hc

theorem mem_node {c : α} : c ∈ (node bf a sub).toList ↔
    c ∈ (sub .left).toList ∨ c = a ∨ c ∈ (sub .right).toList := by
  rw [toList, List.mem_append, List.mem_cons]

/-- The place of a smaller key is on the left. -/
theorem Sorted.mem_left (h : (node bf a sub).Sorted key) {c : α} (hc : c ∈ (node bf a sub).toList)
    (hlt : key c < key a) : c ∈ (sub .left).toList := by
  obtain hmem | rfl | hmem := mem_node.mp hc
  · exact hmem
  · exact absurd hlt (lt_irrefl _)
  · exact absurd hlt (h.lt_right hmem).asymm

theorem Sorted.mem_right (h : (node bf a sub).Sorted key) {c : α}
    (hc : c ∈ (node bf a sub).toList) (hlt : key a < key c) : c ∈ (sub .right).toList := by
  obtain hmem | rfl | hmem := mem_node.mp hc
  · exact absurd hlt (h.left_lt hmem).asymm
  · exact absurd hlt (lt_irrefl _)
  · exact hmem

/-- The new element has its place between the smaller and the larger ones. -/
theorem toList_insert (new : α) (h : t.Sorted key) (hnew : ∀ c ∈ t.toList, key c ≠ key new) :
    ∃ l₁ l₂, t.toList = l₁ ++ l₂ ∧ (insert key new t).1.toList = l₁ ++ new :: l₂ ∧
      (∀ c ∈ l₁, key c < key new) ∧ ∀ c ∈ l₂, key new < key c := by
  induction t with
  | nil => exact ⟨[], [], rfl, rfl, fun _ hc => absurd hc List.not_mem_nil,
      fun _ hc => absurd hc List.not_mem_nil⟩
  | node bf a sub ih =>
      rw [insert]
      split_ifs with heq hlt
      · exact absurd heq.symm (hnew a (mem_node.mpr (.inr (.inl rfl))))
      · obtain ⟨l₁, l₂, hsplit, hinsert, hsmall, hlarge⟩ :=
          ih .left (h.subtree _) fun c hc => hnew c (mem_node.mpr (.inl hc))
        refine ⟨l₁, l₂ ++ a :: (sub .right).toList, ?_, ?_, hsmall, fun c hc => ?_⟩
        · rw [toList, hsplit, List.append_assoc]
        · rw [toList_grow, toList_left, hinsert, List.append_assoc, List.cons_append]
        · obtain hc | rfl | hc := (List.mem_append.trans (or_congr Iff.rfl List.mem_cons)).mp hc
          · exact hlarge c hc
          · exact hlt
          · exact hlt.trans (h.lt_right hc)
      · have hgt := lt_of_le_of_ne (not_lt.mp hlt) (Ne.symm heq)
        obtain ⟨l₁, l₂, hsplit, hinsert, hsmall, hlarge⟩ :=
          ih .right (h.subtree _) fun c hc => hnew c (mem_node.mpr (.inr (.inr hc)))
        refine ⟨(sub .left).toList ++ a :: l₁, l₂, ?_, ?_, fun c hc => ?_, hlarge⟩
        · rw [toList, hsplit, List.append_assoc, List.cons_append]
        · rw [toList_grow, toList_right, hinsert, List.append_assoc, List.cons_append]
        · obtain hc | rfl | hc := (List.mem_append.trans (or_congr Iff.rfl List.mem_cons)).mp hc
          · exact (h.left_lt hc).trans hgt
          · exact hgt
          · exact hsmall c hc

theorem toList_eraseLast (h : t ≠ nil) : t.toList = (eraseLast t).1.toList ++ [last b t] := by
  induction t generalizing b with
  | nil => exact absurd rfl h
  | node bf a sub ih =>
      rw [eraseLast, last]
      split_ifs with hnil
      · rw [isNil_iff] at hnil
        rw [toList, hnil]
        rfl
      · rw [isNil_iff] at hnil
        rw [toList_shrink, toList_right, toList, List.append_assoc, List.cons_append,
          ← ih .right hnil]

/-- An element goes; where it had two subtrees, the one before it goes, and its content comes to
the place of the first. -/
theorem toList_erase (give : α → α → α) (h : t.Sorted key) {c : α} (hc : c ∈ t.toList) :
    ∃ l₁ l₂, t.toList = l₁ ++ c :: l₂ ∧
      (taken key (key c) b t = (c, none) ∧ (erase key give (key c) t).1.toList = l₁ ++ l₂ ∨
        ∃ l₀ d, l₁ = l₀ ++ [d] ∧ taken key (key c) b t = (c, some d) ∧
          (erase key give (key c) t).1.toList = l₀ ++ give c d :: l₂) := by
  induction t with
  | nil => exact absurd hc List.not_mem_nil
  | node bf a sub ih =>
      rw [erase, taken]
      split_ifs with hlt hgt hleft hright
      · obtain ⟨l₁, l₂, hsplit, herase⟩ := ih .left (h.subtree _) (h.mem_left hc hlt)
        refine ⟨l₁, l₂ ++ a :: (sub .right).toList, ?_, ?_⟩
        · rw [toList, hsplit, List.append_assoc, List.cons_append]
        · rw [toList_shrink, toList_left]
          obtain ⟨htaken, herase⟩ | ⟨l₀, d, hd, htaken, herase⟩ := herase
          · exact .inl ⟨htaken, by rw [herase, List.append_assoc]⟩
          · exact .inr ⟨l₀, d, hd, htaken, by rw [herase, List.append_assoc, List.cons_append]⟩
      · obtain ⟨l₁, l₂, hsplit, herase⟩ := ih .right (h.subtree _) (h.mem_right hc hgt)
        refine ⟨(sub .left).toList ++ a :: l₁, l₂, ?_, ?_⟩
        · rw [toList, hsplit, List.append_assoc, List.cons_append]
        · rw [toList_shrink, toList_right]
          obtain ⟨htaken, herase⟩ | ⟨l₀, d, hd, htaken, herase⟩ := herase
          · exact .inl ⟨htaken, by rw [herase, List.append_assoc, List.cons_append]⟩
          · refine .inr ⟨(sub .left).toList ++ a :: l₀, d, ?_, htaken, ?_⟩
            · rw [hd, List.append_assoc, List.cons_append]
            · rw [herase, List.append_assoc, List.cons_append]
      all_goals
        obtain rfl : c = a := by
          obtain hmem | heq | hmem := mem_node.mp hc
          · exact absurd (h.left_lt hmem) hlt
          · exact heq
          · exact absurd (h.lt_right hmem) hgt
      · rw [isNil_iff] at hleft
        exact ⟨[], (sub .right).toList, by rw [toList, hleft]; rfl, .inl ⟨rfl, rfl⟩⟩
      · rw [isNil_iff] at hright
        exact ⟨(sub .left).toList, [], by rw [toList, hright]; rfl,
          .inl ⟨rfl, (List.append_nil _).symm⟩⟩
      · rw [isNil_iff] at hleft
        refine ⟨(sub .left).toList, (sub .right).toList, rfl,
          .inr ⟨_, _, toList_eraseLast (b := c) hleft, rfl, ?_⟩⟩
        rw [toList_shrink, toList_left]

/-! ## Size -/

theorem height_le_length (t : AvlTree α) : t.height ≤ t.toList.length := by
  induction t with
  | nil => exact le_rfl
  | node bf a sub ih =>
      rw [height, toList, List.length_append, List.length_cons]
      have hl := ih .left
      have hr := ih .right
      omega

/-- A balanced tree has at least as many elements as the Fibonacci numbers say. -/
theorem fib_height_le (h : t.Avl) : Nat.fib (t.height + 2) ≤ t.toList.length + 1 := by
  induction t with
  | nil => exact le_rfl
  | node bf a sub ih =>
      obtain ⟨hl, hr, hweighs⟩ := h
      have hsum := hweighs.fib_le
      have ihl := ih .left hl
      have ihr := ih .right hr
      have hheight : (node bf a sub).height + 2 =
        max (sub .left).height (sub .right).height + 3 := rfl
      rw [hheight, toList, List.length_append, List.length_cons]
      omega

/-! ## Contents -/

/-- The elements are changed where they are. -/
def map (g : α → α) : AvlTree α → AvlTree α
  | nil => nil
  | node bf a sub => node bf (g a) fun s => (sub s).map g

theorem toList_map (g : α → α) (t : AvlTree α) : (t.map g).toList = t.toList.map g := by
  induction t with
  | nil => rfl
  | node bf a sub ih => rw [map, toList, toList, List.map_append, List.map_cons, ih, ih]

theorem height_map (g : α → α) (t : AvlTree α) : (t.map g).height = t.height := by
  induction t with
  | nil => rfl
  | node bf a sub ih => rw [map, height, height, ih, ih]

theorem avl_map (g : α → α) (h : t.Avl) : (t.map g).Avl := by
  induction t with
  | nil => trivial
  | node bf a sub ih =>
      rw [map, Avl, height_map, height_map]
      exact ⟨ih .left h.1, ih .right h.2.1, h.2.2⟩

theorem isNil_map (g : α → α) (t : AvlTree α) : (t.map g).isNil = t.isNil := by
  cases t <;> rfl

/-- The place of an element in the list is the only one with its key. -/
theorem Sorted.split_unique (h : t.Sorted key) {c : α} {l₁ l₂ l₁' l₂' : List α}
    (hl : t.toList = l₁ ++ c :: l₂) (hl' : t.toList = l₁' ++ c :: l₂') : l₁ = l₁' ∧ l₂ = l₂' := by
  rw [Sorted, hl] at h
  obtain ⟨-, hright, hcross⟩ := List.pairwise_append.mp h
  have hbefore : c ∉ l₁ := fun hmem => lt_irrefl _ (hcross c hmem c List.mem_cons_self)
  have hafter : c ∉ l₂ := fun hmem => lt_irrefl _ ((List.pairwise_cons.mp hright).1 c hmem)
  obtain ⟨hfirst, -, hrest⟩ :=
    (List.append_cons_inj_of_notMem hbefore hafter).mp (hl.symm.trans hl')
  exact ⟨hfirst, hrest⟩

end AvlTree

end Lush.Balanced
