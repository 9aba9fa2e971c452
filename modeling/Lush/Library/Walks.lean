import Mathlib

/-!
# Walks

A graph is given by the edges that leave every node, and by the nodes that edges lead to.
A second graph whose nodes are named by some nodes of the first, and whose edges come from edges
of the first, has the same walks to a node `b` if it misses only edges that do not lead on to `b`
(`bijOn_walks`).
-/

namespace Lush.Walks

variable {ν ε μ ι : Type*} {out : ν → List ε} {dst : ε → ν} {a b c : ν} {p q : List ε}

/-- A walk from a node to another one. -/
def Walk (out : ν → List ε) (dst : ε → ν) : ν → List ε → ν → Prop
  | a, [], b => a = b
  | a, e :: p, b => e ∈ out a ∧ Walk out dst (dst e) p b

/-- The node `b` can be reached. -/
def Leads (out : ν → List ε) (dst : ε → ν) (a b : ν) : Prop := ∃ p, Walk out dst a p b

@[simp] theorem walk_nil : Walk out dst a [] b ↔ a = b := Iff.rfl

@[simp] theorem walk_cons {e : ε} :
    Walk out dst a (e :: p) b ↔ e ∈ out a ∧ Walk out dst (dst e) p b := Iff.rfl

theorem walk_append : Walk out dst a (p ++ q) b ↔
    ∃ c, Walk out dst a p c ∧ Walk out dst c q b := by
  induction p generalizing a with
  | nil => simp
  | cons e p ih => simp [ih, and_assoc]

theorem leads_self (a : ν) : Leads out dst a a := ⟨[], rfl⟩

theorem Leads.cons {e : ε} (he : e ∈ out a) (h : Leads out dst (dst e) b) : Leads out dst a b := by
  obtain ⟨p, hp⟩ := h
  exact ⟨e :: p, he, hp⟩

/-- A node leads to another one if it is this node, or has an edge to a node that does. -/
theorem leads_iff : Leads out dst a b ↔ a = b ∨ ∃ e ∈ out a, Leads out dst (dst e) b := by
  constructor
  · rintro ⟨p, hp⟩
    cases p with
    | nil => exact .inl hp
    | cons e p => exact .inr ⟨e, hp.1, p, hp.2⟩
  · rintro (rfl | ⟨e, he, h⟩)
    · exact leads_self a
    · exact h.cons he

theorem Leads.mem {U : Set ν} (hclosed : ∀ v ∈ U, ∀ e ∈ out v, dst e ∈ U) (ha : a ∈ U)
    (h : Leads out dst a b) : b ∈ U := by
  obtain ⟨p, hp⟩ := h
  induction p generalizing a with
  | nil =>
      obtain rfl : a = b := hp
      exact ha
  | cons e p ih => exact ih (hclosed a ha e hp.1) hp.2

/-- The walk backwards, along the edges that lead to every node. -/
theorem walk_reverse {into : ν → List ε} {src : ε → ν}
    (hinto : ∀ v e, e ∈ into v ↔ e ∈ out (src e) ∧ dst e = v)
    (hout : ∀ v e, e ∈ out v → src e = v) :
    Walk into src a p.reverse b ↔ Walk out dst b p a := by
  induction p generalizing b with
  | nil => exact eq_comm
  | cons e p ih =>
      rw [List.reverse_cons, walk_append, walk_cons]
      constructor
      · rintro ⟨c, hp, he, rfl⟩
        obtain ⟨hmem, rfl⟩ := (hinto c e).mp he
        exact ⟨hmem, ih.mp hp⟩
      · rintro ⟨he, hp⟩
        have hsrc := hout b e he
        exact ⟨dst e, ih.mpr hp, (hinto _ e).mpr ⟨hsrc ▸ he, rfl⟩, hsrc⟩

/-- No walk comes back to where it started. -/
def Acyclic (out : ν → List ε) (dst : ε → ν) : Prop := ∀ a p, Walk out dst a p a → p = []

/-- Edges that climb form no cycle. -/
theorem Acyclic.of_rank (rank : ν → ℕ) (h : ∀ v, ∀ e ∈ out v, rank v < rank (dst e)) :
    Acyclic out dst := by
  have hle : ∀ (p : List ε) (a b : ν), Walk out dst a p b → rank a ≤ rank b := by
    intro p
    induction p with
    | nil =>
        rintro a b rfl
        exact le_rfl
    | cons e p ih => exact fun a b hp => (h a e hp.1).le.trans (ih _ b hp.2)
  intro a p hp
  cases p with
  | nil => rfl
  | cons e p => exact absurd (hle p _ a hp.2) (Nat.not_le.mpr (h a e hp.1))

theorem Acyclic.not_leads (h : Acyclic out dst) {e : ε} (he : e ∈ out a) :
    ¬Leads out dst (dst e) a := by
  rintro ⟨p, hp⟩
  cases h a (e :: p) ⟨he, hp⟩

/-- An edge of a graph without cycles leads to a node that leads to fewer. -/
theorem Acyclic.ncard_lt (h : Acyclic out dst) (hfin : {c | Leads out dst a c}.Finite) {e : ε}
    (he : e ∈ out a) : {c | Leads out dst (dst e) c}.ncard < {c | Leads out dst a c}.ncard := by
  refine Set.ncard_lt_ncard (Set.ssubset_iff_of_subset ?_ |>.mpr ⟨a, ?_, ?_⟩) hfin
  · exact fun c hc => Leads.cons he hc
  · exact leads_self a
  · exact h.not_leads he

section Image

variable {out' : μ → List ι} {dst' : ι → μ} {name : ν → Option μ} {origin : ι → ε} {a' b' : μ}

/-- The edges of the second graph come from edges between the nodes that name theirs. -/
structure Image (out : ν → List ε) (dst : ε → ν) (out' : μ → List ι) (dst' : ι → μ)
    (name : ν → Option μ) (origin : ι → ε) : Prop where
  named : ∀ {v w : ν} {u : μ}, name v = some u → name w = some u → v = w
  edge : ∀ {v : ν} {u : μ} {k : ι}, name v = some u → k ∈ out' u →
    origin k ∈ out v ∧ name (dst (origin k)) = some (dst' k)
  once : ∀ {u : μ} {k k' : ι}, k ∈ out' u → k' ∈ out' u → origin k = origin k' → k = k'

theorem Image.walk (h : Image out dst out' dst' name origin) {k : List ι}
    (ha : name a = some a') (hb : name b = some b') (hk : Walk out' dst' a' k b') :
    Walk out dst a (k.map origin) b := by
  induction k generalizing a a' with
  | nil =>
      obtain rfl : a' = b' := hk
      exact h.named ha hb
  | cons k ks ih =>
      obtain ⟨hmem, hname⟩ := h.edge ha hk.1
      exact ⟨hmem, ih hname hk.2⟩

/-- A cycle among the nodes that name some comes from a cycle. -/
theorem Image.acyclic (h : Image out dst out' dst' name origin) (hacyclic : Acyclic out dst)
    (hname : ∀ u, ∀ k ∈ out' u, ∃ v, name v = some u) : Acyclic out' dst' := by
  intro u p hp
  cases p with
  | nil => rfl
  | cons k p =>
      obtain ⟨v, hv⟩ := hname u k hp.1
      cases hacyclic v _ (h.walk hv hv hp)

theorem Image.injective (h : Image out dst out' dst' name origin) {k k' : List ι}
    (hk : Walk out' dst' a' k b') (hk' : Walk out' dst' a' k' b')
    (heq : k.map origin = k'.map origin) : k = k' := by
  induction k generalizing a' k' with
  | nil => exact (List.map_eq_nil_iff.mp heq.symm).symm
  | cons i k ih =>
      cases k' with
      | nil => cases heq
      | cons i' k' =>
          obtain ⟨hhead, htail⟩ := List.cons.inj heq
          obtain rfl := h.once hk.1 hk'.1 hhead
          rw [ih hk.2 hk'.2 htail]

/-- **The walks to `b` are the same** when only edges are missing that do not lead on to `b`. -/
theorem bijOn_walks (h : Image out dst out' dst' name origin)
    (hcomplete : ∀ {v : ν} {u : μ} {e : ε}, name v = some u → e ∈ out v → Leads out dst (dst e) b →
      ∃ k ∈ out' u, origin k = e)
    (ha : name a = some a') (hb : name b = some b') :
    Set.BijOn (List.map origin) {k | Walk out' dst' a' k b'} {p | Walk out dst a p b} := by
  refine ⟨fun k hk => h.walk ha hb hk, fun k hk k' hk' => h.injective hk hk', fun p hp => ?_⟩
  induction p generalizing a a' with
  | nil =>
      obtain rfl : a = b := hp
      obtain rfl : a' = b' := Option.some.inj (ha.symm.trans hb)
      exact ⟨[], rfl, rfl⟩
  | cons e p ih =>
      obtain ⟨k, hk, rfl⟩ := hcomplete ha hp.1 ⟨p, hp.2⟩
      obtain ⟨-, hname⟩ := h.edge ha hk
      obtain ⟨ks, hks, rfl⟩ := ih hname hp.2
      exact ⟨k :: ks, ⟨hk, hks⟩, rfl⟩

end Image

end Lush.Walks
