import Lush.Oostruct.Methods

/-!
# The tables of the methods

`clear_hashok` reaches every subclass, direct or not (`clearHashok_ok`).
`update_hashtable` takes the methods that are not zombies of the class and of its
superclasses, the nearest first, and ends with a table that has the first method of
every name (`updateHashtable_ok`): each restart doubles the size, and a table that is
greater than all addresses has room for them.
-/

namespace Lush.Oostruct

open Probing

variable {φ : Type} {h h' : Heap φ}

/-! ## Superclasses -/

section Chain

variable {super super' : ℕ → Option ℕ} (hlt : ∀ c s, super c = some s → s < c)

include hlt in
/-- A chain does not depend on the bound. -/
theorem chain_eq {c fuel : ℕ} (hfuel : c < fuel) : chain super fuel c = chain super (c + 1) c := by
  induction c using Nat.strong_induction_on generalizing fuel with
  | _ c ih =>
      obtain ⟨fuel, rfl⟩ := Nat.exists_eq_add_one_of_ne_zero (Nat.ne_zero_of_lt hfuel)
      rw [chain, chain]
      cases hs : super c with
      | none => rfl
      | some s =>
          have hsc := hlt c s hs
          simp only [Option.map_some, Option.getD_some]
          rw [ih s hsc (by omega), ih s hsc hsc]

include hlt in
/-- A chain is a class and the chain of its superclass. -/
theorem chain_cons {c fuel : ℕ} (hfuel : c < fuel) :
    chain super fuel c = c :: ((super c).map (chain super fuel)).getD [] := by
  rw [chain_eq hlt hfuel, chain]
  cases hs : super c with
  | none => rfl
  | some s =>
      have hsc := hlt c s hs
      simp only [Option.map_some, Option.getD_some]
      rw [chain_eq hlt hsc, chain_eq hlt (hsc.trans hfuel)]

include hlt in
theorem le_of_mem_chain {a c fuel : ℕ} (hmem : a ∈ chain super fuel c) : a ≤ c := by
  induction fuel generalizing c with
  | zero => exact absurd hmem List.not_mem_nil
  | succ fuel ih =>
      rw [chain] at hmem
      rcases List.mem_cons.mp hmem with rfl | hmem
      · exact le_rfl
      · cases hs : super c with
        | none =>
            rw [hs] at hmem
            exact absurd hmem List.not_mem_nil
        | some s =>
            rw [hs] at hmem
            exact (ih hmem).trans (hlt c s hs).le

/-- A class of the chain, other than the first, is the superclass of one of the chain. -/
theorem exists_sub_of_mem_chain {a c fuel : ℕ} (hmem : a ∈ chain super fuel c) (hne : a ≠ c) :
    ∃ s ∈ chain super fuel c, super s = some a := by
  induction fuel generalizing c with
  | zero => exact absurd hmem List.not_mem_nil
  | succ fuel ih =>
      rw [chain] at hmem ⊢
      have hrest := (List.mem_cons.mp hmem).resolve_left hne
      cases hs : super c with
      | none =>
          rw [hs] at hrest
          exact absurd hrest List.not_mem_nil
      | some s =>
          rw [hs, Option.map_some, Option.getD_some] at hrest
          by_cases has : a = s
          · exact ⟨c, List.mem_cons_self, has ▸ hs⟩
          · obtain ⟨b, hb, hba⟩ := ih hrest has
            exact ⟨b, List.mem_cons_of_mem _ hb, hba⟩

include hlt in
/-- Only the superclasses of a class and of those before it matter. -/
theorem chain_congr {c fuel : ℕ} (heq : ∀ a ≤ c, super' a = super a) :
    chain super' fuel c = chain super fuel c := by
  induction fuel generalizing c with
  | zero => rfl
  | succ fuel ih =>
      rw [chain, chain, heq c le_rfl]
      cases hs : super c with
      | none => rfl
      | some s =>
          have hrest := ih (c := s) fun a ha => heq a (ha.trans (hlt c s hs).le)
          rw [Option.map_some, Option.map_some, hrest]

end Chain

/-! ## Out of date -/

/-- The subclasses of a class come after it. -/
structure Tree (h : Heap φ) : Prop where
  super_lt : ∀ c s, (h.classes c).super = some s → s < c
  subclasses : ∀ c s, c ∈ (h.classes s).subclasses ↔ c < h.count ∧ (h.classes c).super = some s

/-- The heaps differ in what is marked as up to date. -/
structure Marked (h h' : Heap φ) : Prop where
  count : h'.count = h.count
  zombies : h'.zombies = h.zombies
  classes : ∀ c, h'.classes c = { h.classes c with hashok := (h'.classes c).hashok }
  hashok : ∀ c, (h'.classes c).hashok = true → (h.classes c).hashok = true

theorem Marked.trans {h1 h2 h3 : Heap φ} (h12 : Marked h1 h2) (h23 : Marked h2 h3) :
    Marked h1 h3 where
  count := h23.count.trans h12.count
  zombies := h23.zombies.trans h12.zombies
  classes c := by rw [h23.classes c, h12.classes c]
  hashok c hc := h12.hashok c (h23.hashok c hc)

theorem Marked.super_eq (hmark : Marked h h') (c : ℕ) : (h'.classes c).super = (h.classes c).super := by
  rw [hmark.classes c]

theorem Marked.subclasses_eq (hmark : Marked h h') (c : ℕ) :
    (h'.classes c).subclasses = (h.classes c).subclasses := by
  rw [hmark.classes c]

theorem Marked.tree (hmark : Marked h h') (htree : Tree h) : Tree h' where
  super_lt c s := by
    rw [hmark.super_eq]
    exact htree.super_lt c s
  subclasses c s := by
    rw [hmark.super_eq, hmark.subclasses_eq, hmark.count]
    exact htree.subclasses c s

theorem Marked.chain (hmark : Marked h h') (c : ℕ) : h'.chain c = h.chain c := by
  simp only [Heap.chain, hmark.super_eq, hmark.count]

theorem marked_set_false (h : Heap φ) (cl : ℕ) :
    Marked h (h.set cl { h.classes cl with hashok := false }) where
  count := rfl
  zombies := rfl
  classes c := by
    by_cases hc : c = cl
    · subst hc
      simp [Heap.set]
    · simp [Heap.set, hc]
  hashok c hc := by
    by_cases hcl : c = cl
    · subst hcl
      simp [Heap.set] at hc
    · simpa [Heap.set, hcl] using hc

/-- **`clear_hashok` reaches all subclasses.** -/
theorem clearHashok_ok (htree : Tree h) {fuel cl : ℕ} (hcl : cl < h.count)
    (hfuel : h.count ≤ fuel + cl) :
    ∃ h', clearHashok fuel h cl = .ok h' ∧ Marked h h' ∧
      ∀ c < h.count, (h'.classes c).hashok = true → cl ∉ h.chain c := by
  induction fuel generalizing h cl with
  | zero => omega
  | succ fuel ih =>
      set h1 := h.set cl { h.classes cl with hashok := false } with hh1
      have hmark1 : Marked h h1 := marked_set_false h cl
      -- the subclasses, one after the other
      have hfold : ∀ (subs : List ℕ) (h2 : Heap φ), Marked h h2 →
          (∀ s ∈ subs, cl < s ∧ s < h.count) →
          ∃ h', subs.foldlM (clearHashok fuel) h2 = .ok h' ∧ Marked h2 h' ∧
            ∀ c < h.count, (h'.classes c).hashok = true → ∀ s ∈ subs, s ∉ h.chain c := by
        intro subs
        induction subs with
        | nil =>
            intro h2 _ _
            exact ⟨h2, rfl, ⟨rfl, rfl, fun _ => rfl, fun _ hc => hc⟩, by simp⟩
        | cons s subs ihs =>
            intro h2 hmark2 hsubs
            obtain ⟨hs1, hs2⟩ := hsubs s List.mem_cons_self
            have hs2' : s < h2.count := by rwa [hmark2.count]
            obtain ⟨h3, hclear, hmark3, hout⟩ := ih (hmark2.tree htree) hs2'
              (by rw [hmark2.count]; omega)
            obtain ⟨h', hrest, hmark', hout'⟩ := ihs h3 (hmark2.trans hmark3)
              fun b hb => hsubs b (List.mem_cons_of_mem _ hb)
            refine ⟨h', ?_, hmark3.trans hmark', fun c hc hok b hb => ?_⟩
            · rw [List.foldlM_cons, hclear]
              exact hrest
            · rcases List.mem_cons.mp hb with rfl | hb
              · rw [← hmark2.chain]
                exact hout c (by rw [hmark2.count]; exact hc) (hmark'.hashok c hok)
              · exact hout' c hc hok b hb
      have hsubs : ∀ s ∈ (h1.classes cl).subclasses, cl < s ∧ s < h.count := by
        intro s hs
        rw [hmark1.subclasses_eq] at hs
        obtain ⟨hlt, hsuper⟩ := (htree.subclasses s cl).mp hs
        exact ⟨htree.super_lt s cl hsuper, hlt⟩
      obtain ⟨h', hrun, hmark', hout⟩ := hfold _ h1 hmark1 hsubs
      refine ⟨h', hrun, hmark1.trans hmark', fun c hc hok hmem => ?_⟩
      have hne : cl ≠ c := by
        rintro rfl
        have hok1 := hmark'.hashok cl hok
        simp [hh1, Heap.set] at hok1
      obtain ⟨s, hs, hsuper⟩ := exists_sub_of_mem_chain hmem hne
      have hsc : s ≤ c := le_of_mem_chain htree.super_lt hs
      refine hout c hc hok s ?_ hs
      rw [hmark1.subclasses_eq]
      exact (htree.subclasses s cl).mpr ⟨by omega, hsuper⟩

/-! ## The methods of the classes -/

/-- A table that is greater than all addresses has room for all methods. -/
theorem insertAll_large {size : ℕ} {entries : List (ℕ × φ × ℕ)}
    (hsize : ∀ e ∈ entries, e.1 + 3 < size) :
    ∃ table, insertAll (hash size) 3 entries empty = some table := by
  refine insertAll_isSome (by decide) (fun i k v hi => absurd hi (by simp [empty])) ?_
  intro e he e' he' heq
  have h1 := hsize e he
  have h2 := hsize e' he'
  rwa [hash, hash, Nat.mod_eq_of_lt (by omega), Nat.mod_eq_of_lt (by omega)] at heq

section Zombies

variable [DecidableEq φ]

/-- The methods of a list that are not zombies. -/
def alive (zombies : List φ) (methods : List (ℕ × φ)) : List (ℕ × φ) :=
  methods.filter fun q => q.2 ∉ zombies

/-- The methods of a class as they go into a table. -/
def Heap.entries (h : Heap φ) (c : ℕ) : List (ℕ × φ × ℕ) :=
  (alive h.zombies (h.classes c).methods).map fun q => (q.1, q.2, (h.classes c).slotssofar)

theorem grabMethods_ok (zombies : List φ) (size sofar : ℕ) (methods : List (ℕ × φ))
    (table : Hashtable φ) :
    (grabMethods zombies size sofar methods table).1.Sublist methods ∧
      alive zombies (grabMethods zombies size sofar methods table).1 = alive zombies methods ∧
      (grabMethods zombies size sofar methods table).2 = insertAll (hash size) 3
        ((alive zombies methods).map fun q => (q.1, q.2, sofar)) table := by
  induction methods generalizing table with
  | nil => exact ⟨.slnil, rfl, rfl⟩
  | cons q rest ih =>
      obtain ⟨prop, value⟩ := q
      rw [grabMethods]
      by_cases hz : value ∈ zombies
      · have halive : alive zombies ((prop, value) :: rest) = alive zombies rest :=
          List.filter_cons_of_neg (by simpa using hz)
        rw [if_pos hz, halive]
        obtain ⟨hsub, hrest, htable⟩ := ih table
        exact ⟨hsub.cons _, hrest, htable⟩
      · have halive : ∀ l, alive zombies ((prop, value) :: l) = (prop, value) :: alive zombies l :=
          fun l => List.filter_cons_of_pos (by simpa using hz)
        rw [if_neg hz, halive, List.map_cons, insertAll]
        cases hinsert : insertFrom table prop (value, sofar) 3 (hash size prop) with
        | none => exact ⟨.refl _, halive rest, rfl⟩
        | some table' =>
            obtain ⟨hsub, hrest, htable⟩ := ih table'
            refine ⟨hsub.cons_cons _, ?_, htable⟩
            rw [halive, hrest]

/-- The heaps differ in methods that are zombies. -/
structure Purged (h h' : Heap φ) : Prop where
  count : h'.count = h.count
  zombies : h'.zombies = h.zombies
  classes : ∀ c, h'.classes c = { h.classes c with methods := (h'.classes c).methods }
  sublist : ∀ c, ((h'.classes c).methods).Sublist (h.classes c).methods
  alive : ∀ c, alive h.zombies (h'.classes c).methods = alive h.zombies (h.classes c).methods

theorem purged_refl (h : Heap φ) : Purged h h :=
  ⟨rfl, rfl, fun _ => rfl, fun _ => .refl _, fun _ => rfl⟩

theorem Purged.trans {h1 h2 h3 : Heap φ} (h12 : Purged h1 h2) (h23 : Purged h2 h3) :
    Purged h1 h3 where
  count := h23.count.trans h12.count
  zombies := h23.zombies.trans h12.zombies
  classes c := by rw [h23.classes c, h12.classes c]
  sublist c := (h23.sublist c).trans (h12.sublist c)
  alive c := by
    rw [← h12.alive c, ← h12.zombies]
    exact h23.alive c

theorem Purged.entries (hpurged : Purged h h') (c : ℕ) : h'.entries c = h.entries c := by
  rw [Heap.entries, hpurged.zombies, hpurged.alive, hpurged.classes c]
  rfl

theorem Purged.chain (hpurged : Purged h h') (c : ℕ) : h'.chain c = h.chain c := by
  have hsuper : ∀ c, (h'.classes c).super = (h.classes c).super := fun c => by
    rw [hpurged.classes c]
  simp only [Heap.chain, hsuper, hpurged.count]

theorem grabClasses_ok (size : ℕ) (cs : List ℕ) (h : Heap φ) (table : Hashtable φ) :
    Purged h (grabClasses size cs h table).1 ∧
      (grabClasses size cs h table).2 =
        insertAll (hash size) 3 (cs.flatMap h.entries) table := by
  induction cs generalizing h table with
  | nil => exact ⟨purged_refl h, rfl⟩
  | cons c cs ih =>
      obtain ⟨hsub, halive, htable⟩ :=
        grabMethods_ok h.zombies size (h.classes c).slotssofar (h.classes c).methods table
      obtain ⟨⟨methods, table'⟩, hr⟩ :
        ∃ r, grabMethods h.zombies size (h.classes c).slotssofar (h.classes c).methods table = r :=
          ⟨_, rfl⟩
      rw [hr] at hsub halive htable
      set h1 := h.set c { h.classes c with methods := methods } with hh1
      have hpurged : Purged h h1 := by
        refine ⟨rfl, rfl, fun b => ?_, fun b => ?_, fun b => ?_⟩
        all_goals by_cases hb : b = c
        · subst hb
          simp [hh1, Heap.set]
        · simp [hh1, Heap.set, hb]
        · subst hb
          simpa [hh1, Heap.set] using hsub
        · simp [hh1, Heap.set, hb]
        · subst hb
          simpa [hh1, Heap.set] using halive
        · simp [hh1, Heap.set, hb]
      have hentries : h1.entries = h.entries := funext hpurged.entries
      have hfirst : insertAll (hash size) 3 (h.entries c) table = table' := htable.symm
      rw [List.flatMap_cons, insertAll_append, hfirst]
      cases table' with
      | none =>
          simp only [grabClasses, hr]
          exact ⟨hpurged, rfl⟩
      | some table' =>
          obtain ⟨hrest, htable'⟩ := ih h1 table'
          rw [hentries] at htable'
          simp only [grabClasses, hr]
          exact ⟨hpurged.trans hrest, htable'⟩

/-! ## Restarts -/

/-- What `update_hashtable` leaves. -/
structure Updated (cl : ℕ) (h h' : Heap φ) : Prop where
  count : h'.count = h.count
  zombies : h'.zombies = h.zombies
  classes : ∀ c ≠ cl, h'.classes c = { h.classes c with methods := (h'.classes c).methods }
  tree : (h'.classes cl).super = (h.classes cl).super ∧
    (h'.classes cl).subclasses = (h.classes cl).subclasses ∧
    (h'.classes cl).object = (h.classes cl).object ∧
    (h'.classes cl).slotssofar = (h.classes cl).slotssofar
  sublist : ∀ c, ((h'.classes c).methods).Sublist (h.classes c).methods
  alive : ∀ c, alive h.zombies (h'.classes c).methods = alive h.zombies (h.classes c).methods
  table : ∃ table, (h'.classes cl).hashtable = some table ∧ ∀ prop,
    findFrom table prop 3 (hash (h'.classes cl).hashsize prop) =
      ((h.chain cl).flatMap h.entries).lookup prop
  hashok : (h'.classes cl).hashok = true

theorem Updated.of_purged {cl : ℕ} {h1 : Heap φ} (hpurged : Purged h h1) (hup : Updated cl h1 h') :
    Updated cl h h' where
  count := hup.count.trans hpurged.count
  zombies := hup.zombies.trans hpurged.zombies
  classes c hc := by rw [hup.classes c hc, hpurged.classes c]
  tree := by
    rw [hup.tree.1, hup.tree.2.1, hup.tree.2.2.1, hup.tree.2.2.2, hpurged.classes cl]
    exact ⟨rfl, rfl, rfl, rfl⟩
  sublist c := (hup.sublist c).trans (hpurged.sublist c)
  alive c := by
    rw [← hpurged.alive c, ← hpurged.zombies]
    exact hup.alive c
  table := by
    rw [← hpurged.chain, ← funext hpurged.entries]
    exact hup.table
  hashok := hup.hashok

theorem restart_ok (cl : ℕ) {rounds size : ℕ} (h : Heap φ) (hrounds : 0 < rounds)
    (hlarge : ∀ e ∈ (h.chain cl).flatMap h.entries, e.1 + 3 < 2 ^ rounds * size) :
    ∃ h', restart cl rounds size h = .ok h' ∧ Updated cl h h' := by
  induction rounds generalizing size h with
  | zero => exact absurd hrounds (lt_irrefl 0)
  | succ rounds ih =>
      obtain ⟨⟨h1, table⟩, hr⟩ : ∃ r, grabClasses (2 * size) (h.chain cl) h empty = r := ⟨_, rfl⟩
      obtain ⟨hpurged, htable⟩ := grabClasses_ok (2 * size) (h.chain cl) h empty
      rw [hr] at hpurged htable
      have hpow : 2 ^ (rounds + 1) * size = 2 ^ rounds * (2 * size) := by ring
      rw [hpow] at hlarge
      cases table with
      | none =>
          have hpos : 0 < rounds := by
            refine Nat.pos_of_ne_zero ?_
            rintro rfl
            rw [pow_zero, one_mul] at hlarge
            obtain ⟨table, hsome⟩ := insertAll_large hlarge
            exact absurd (htable.trans hsome) (by simp)
          have hlarge1 : ∀ e ∈ (h1.chain cl).flatMap h1.entries,
              e.1 + 3 < 2 ^ rounds * (2 * size) := by
            rw [hpurged.chain, funext hpurged.entries]
            exact hlarge
          obtain ⟨h', hrun, hup⟩ := ih h1 hpos hlarge1
          refine ⟨h', ?_, hup.of_purged hpurged⟩
          simp only [restart, hr]
          exact hrun
      | some table =>
          set h' := h1.set cl { h1.classes cl with
            hashtable := some table, hashsize := 2 * size, hashok := true } with hh'
          have hother : ∀ c ≠ cl, h'.classes c = h1.classes c := fun c hc => by
            simp [hh', Heap.set, hc]
          have hself : h'.classes cl = { h1.classes cl with
              hashtable := some table, hashsize := 2 * size, hashok := true } := by
            simp [hh', Heap.set]
          have hmethods : ∀ c, (h'.classes c).methods = (h1.classes c).methods := fun c => by
            by_cases hc : c = cl
            · rw [hc, hself]
            · rw [hother c hc]
          refine ⟨h', by simp only [restart, hr]; rfl, .of_purged hpurged ?_⟩
          refine ⟨rfl, rfl, fun c hc => by rw [hother c hc], by rw [hself]; exact ⟨rfl, rfl, rfl, rfl⟩,
            fun c => by rw [hmethods], fun c => by rw [hmethods], ⟨table, ?_, fun prop => ?_⟩, ?_⟩
          · rw [hself]
          · rw [hself, hpurged.chain, funext hpurged.entries,
              findFrom_insertAll placed_empty htable.symm, findFrom_empty, Option.none_or]
          · rw [hself]

theorem le_startSize (rounds size nclass : ℕ) : size ≤ startSize rounds size nclass := by
  induction rounds generalizing size with
  | zero => exact le_rfl
  | succ rounds ih =>
      rw [startSize]
      split_ifs
      · exact le_trans (by omega) (ih (size * 2))
      · exact le_rfl

/-- **`update_hashtable` returns**, with a table of all methods. -/
theorem updateHashtable_ok (h : Heap φ) (cl : ℕ) :
    ∃ h', updateHashtable h cl = .ok h' ∧ Updated cl h h' := by
  refine restart_ok cl h (Nat.succ_pos _) fun e he => ?_
  obtain ⟨c, hc, hec⟩ := List.mem_flatMap.mp he
  obtain ⟨q, hq, rfl⟩ := List.mem_map.mp hec
  have hmem : q.1 ∈ ((h.chain cl).flatMap fun c => (h.classes c).methods).map Prod.fst := by
    refine List.mem_map_of_mem (List.mem_flatMap.mpr ⟨c, hc, ?_⟩)
    exact List.mem_of_mem_filter hq
  set names := ((h.chain cl).flatMap fun c => (h.classes c).methods).map Prod.fst with hnames
  have hsum : q.1 ≤ names.sum := List.le_sum_of_mem hmem
  have hpow : names.sum + 1 < 2 ^ (names.sum + 1) := Nat.lt_two_pow_self
  have hsize := le_startSize ((h.chain cl).flatMap fun c => (h.classes c).methods).length 16
    ((h.chain cl).flatMap fun c => (h.classes c).methods).length
  calc q.1 + 3 < (names.sum + 1) * 16 := by omega
    _ ≤ 2 ^ (names.sum + 1) * _ := Nat.mul_le_mul hpow.le hsize

end Zombies

end Lush.Oostruct
