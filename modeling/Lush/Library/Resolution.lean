import Mathlib

/-!
# Resolving references

Units hold references to names; a name may be owned by a unit, or be given from
outside.  A unit is resolved if what it refers to is its own, or owned by a
resolved unit, or given.  This is the least solution, so that units which need one
another are not resolved.

A search for what is not resolved follows the references of a unit one after the
other, up to the first one that is not fine (`Follows`).  What a resolved unit
follows is resolved, and it follows nothing back to itself
(`Resolved.not_transGen`).
-/

namespace Lush.Resolution

variable {ν σ : Type}

/-- Units with their references. -/
structure Links (ν σ : Type) where
  refs : ν → List σ
  owner : σ → Option ν
  /-- What is given from outside. -/
  given : σ → Bool
  /-- What is never resolved. -/
  off : ν → Prop

namespace Links

variable {L : Links ν σ} {a b c : ν} {x : σ} {xs : List σ}

/-- Everything a unit refers to is there. -/
inductive Resolved (L : Links ν σ) : ν → Prop
  | intro {b : ν} (hoff : ¬ L.off b) (hgiven : ∀ x ∈ L.refs b, L.owner x = none → L.given x = true)
      (howned : ∀ x ∈ L.refs b, ∀ c, L.owner x = some c → c ≠ b → L.Resolved c) : L.Resolved b

/-- The reference `x` of `b` is its own, or owned by a resolved unit, or given. -/
structure Fine (L : Links ν σ) (b : ν) (x : σ) : Prop where
  given : L.owner x = none → L.given x = true
  owned : ∀ c, L.owner x = some c → c ≠ b → L.Resolved c

theorem resolved_iff : L.Resolved b ↔ ¬ L.off b ∧ ∀ x ∈ L.refs b, L.Fine b x := by
  constructor
  · intro h
    cases h with
    | intro hoff hgiven howned => exact ⟨hoff, fun x hx => ⟨hgiven x hx, howned x hx⟩⟩
  · intro h
    exact .intro h.1 (fun x hx => (h.2 x hx).given) fun x hx => (h.2 x hx).owned

/-- `c` is met among the references `xs` of `b`, before any that is not fine. -/
inductive Met (L : Links ν σ) (b : ν) : List σ → ν → Prop
  | head {x : σ} {xs : List σ} {c : ν} (hx : L.owner x = some c) (hc : c ≠ b) : L.Met b (x :: xs) c
  | tail {x : σ} {xs : List σ} {c : ν} (hx : L.Fine b x) (h : L.Met b xs c) : L.Met b (x :: xs) c

/-- The search goes on from `b` to `c`. -/
def Follows (L : Links ν σ) (b c : ν) : Prop :=
  ¬ L.off b ∧ L.Met b (L.refs b) c

/-- A unit that the search follows back to itself. -/
def Cyclic (L : Links ν σ) : Prop :=
  ∃ b, Relation.TransGen L.Follows b b

theorem Met.owned (h : L.Met b xs c) : ∃ x ∈ xs, L.owner x = some c ∧ c ≠ b := by
  induction h with
  | head hx hc => exact ⟨_, List.mem_cons_self, hx, hc⟩
  | tail _ _ ih =>
      obtain ⟨x, hx, hc⟩ := ih
      exact ⟨x, List.mem_cons_of_mem _ hx, hc⟩

theorem Met.of_mem (hfine : ∀ y ∈ xs, L.Fine b y) (hx : x ∈ xs) (hc : L.owner x = some c)
    (hne : c ≠ b) : L.Met b xs c := by
  induction xs with
  | nil => cases hx
  | cons y xs ih =>
      rcases List.mem_cons.mp hx with rfl | hx
      · exact .head hc hne
      · exact .tail (hfine y List.mem_cons_self)
          (ih (fun z hz => hfine z (List.mem_cons_of_mem _ hz)) hx)

/-- All references of a resolved unit are followed. -/
theorem Resolved.follows (h : L.Resolved b) (hx : x ∈ L.refs b) (hc : L.owner x = some c)
    (hne : c ≠ b) : L.Follows b c :=
  ⟨(resolved_iff.mp h).1, .of_mem (resolved_iff.mp h).2 hx hc hne⟩

theorem Resolved.of_follows (h : L.Resolved b) (hc : L.Follows b c) : L.Resolved c := by
  obtain ⟨x, hx, howner, hne⟩ := hc.2.owned
  exact ((resolved_iff.mp h).2 x hx).owned c howner hne

theorem Resolved.acc (h : L.Resolved b) : Acc (fun c b => L.Follows b c) b := by
  induction h with
  | intro hoff hgiven howned ih =>
      constructor
      intro c hc
      obtain ⟨x, hx, howner, hne⟩ := hc.2.owned
      exact ih x hx c howner hne

theorem not_transGen_of_acc (h : Acc (fun c b => L.Follows b c) b) :
    ¬ Relation.TransGen L.Follows b b := by
  intro hb
  have hacc := h.transGen
  have hback : Relation.TransGen (fun c b => L.Follows b c) b b :=
    (Relation.transGen_swap (r := fun c b => L.Follows b c)).mp hb
  induction hacc with
  | intro b _ ih => exact ih b hback (h.inv_of_transGen hback) hb hback

theorem Resolved.not_transGen (h : L.Resolved b) : ¬ Relation.TransGen L.Follows b b :=
  not_transGen_of_acc h.acc

/-- The last unit of a search leads to the first. -/
theorem transGen_of_isChain {path : List ν}
    (h : List.IsChain (fun c b => L.Follows b c) (b :: path)) (ha : a ∈ path) :
    Relation.TransGen L.Follows a b := by
  induction path generalizing b with
  | nil => cases ha
  | cons c path ih =>
      obtain ⟨hc, hpath⟩ := List.isChain_cons_cons.mp h
      rcases List.mem_cons.mp ha with rfl | ha
      · exact .single hc
      · exact (ih hpath ha).tail hc

/-! ## Two systems of references -/

variable {L' : Links ν σ}

/-- What is resolved stays resolved where every reference that was fine stays fine,
once its owner does. -/
theorem Resolved.mono (hoff : ∀ b, L.Resolved b → ¬ L'.off b)
    (hrefs : ∀ b, L.Resolved b → L'.refs b = L.refs b)
    (hfine : ∀ b, L.Resolved b → ∀ x ∈ L.refs b,
      (∀ c, L.owner x = some c → c ≠ b → L'.Resolved c) → L'.Fine b x)
    (h : L.Resolved b) : L'.Resolved b := by
  induction h with
  | @intro b hoff' hgiven howned ih =>
      have hb : L.Resolved b := .intro hoff' hgiven howned
      refine resolved_iff.mpr ⟨hoff b hb, ?_⟩
      intro x hx
      rw [hrefs b hb] at hx
      exact hfine b hb x hx (ih x hx)

end Links

end Lush.Resolution
