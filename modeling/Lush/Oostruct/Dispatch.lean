import Lush.Library.KeyedLists
import Lush.Oostruct.Tables

/-!
# The nearest definition

Without tables a class has, for every name, the definition that was put last, if it was
not removed.  A method of a class is the first one along the superclasses that is still
alive.  Whatever classes are made, methods put, replaced, removed and looked up and
functions deleted, `getmethod` finds just that (`getmethod_nearest`).
-/

namespace Lush.Oostruct

open Probing Lookup

variable {φ : Type} [DecidableEq φ]

/-! ## Classes without tables -/

/-- The classes, and for each class and name the function that was last put. -/
structure Classes (φ : Type) where
  count : ℕ
  super : ℕ → Option ℕ
  object : ℕ → Bool
  slotssofar : ℕ → ℕ
  definition : ℕ → ℕ → Option φ
  deleted : List φ

/-- The definition in a class itself, if it is alive. -/
def Classes.live (A : Classes φ) (c name : ℕ) : Option φ :=
  (A.definition c name).filter (· ∉ A.deleted)

/-- The nearest definition that is alive, with the slots of its class. -/
def Classes.dispatch (A : Classes φ) (cl name : ℕ) : Option (φ × ℕ) :=
  (chain A.super A.count cl).findSome? fun c => (A.live c name).map fun f => (f, A.slotssofar c)

inductive Operation (φ : Type)
  | define
  | make (superclass slots : ℕ)
  | put (cl name : ℕ) (value : Option φ)
  | get (cl name : ℕ)
  | delete (f : φ)

/-- A new class, without methods. -/
def Classes.new (A : Classes φ) (super : Option ℕ) (object : Bool) (slots : ℕ) : Classes φ :=
  { A with
    count := A.count + 1
    super := Function.update A.super A.count super
    object := Function.update A.object A.count object
    slotssofar := Function.update A.slotssofar A.count slots
    definition := Function.update A.definition A.count fun _ => none }

/-- A definition of a class is put, or removed. -/
def Classes.put (A : Classes φ) (cl name : ℕ) (value : Option φ) : Classes φ :=
  { A with definition :=
      Function.update A.definition cl (Function.update (A.definition cl) name value) }

/-- The effect of an operation on the classes.  Operations that end in an error have
none. -/
def Classes.after (A : Classes φ) : Operation φ → Classes φ
  | .define => A.new none false 0
  | .make superclass slots =>
      if superclass < A.count ∧ A.object superclass = true then
        A.new (some superclass) true (A.slotssofar superclass + slots)
      else A
  | .put cl name value =>
      if cl < A.count ∧ ∀ f ∈ A.deleted, value ≠ some f then A.put cl name value else A
  | .get _ _ => A
  | .delete f => { A with deleted := f :: A.deleted }

/-- The class `object`. -/
def Classes.init (φ : Type) : Classes φ :=
  ⟨1, fun _ => none, fun _ => true, fun _ => 0, fun _ _ => none, []⟩

/-- The effect of an operation in the program. -/
def perform (h : Heap φ) : Operation φ → Except Fault (Heap φ)
  | .define => .ok (classDefine h)
  | .make superclass slots => newOoclass h superclass slots
  | .put cl name value => putmethod h cl name value
  | .get cl name =>
      if h.count ≤ cl then .error (.error "not a class") else Prod.fst <$> getmethod h cl name
  | .delete f => .ok { h with zombies := f :: h.zombies }

/-- After an error the program goes on. -/
def Heap.after (h : Heap φ) (operation : Operation φ) : Heap φ :=
  (perform h operation).toOption.getD h

/-! ## The list of the methods -/

omit [DecidableEq φ] in
theorem lookup_putEntry (name : ℕ) (value : Option φ) {l : List (ℕ × φ)}
    (hnodup : (l.map Prod.fst).Nodup) (m : ℕ) :
    (putEntry name value l).lookup m = if m = name then value else l.lookup m := by
  induction l with
  | nil =>
      cases value with
      | none => simp [putEntry]
      | some value =>
          by_cases hm : m = name
          · simp [putEntry, hm]
          · simp [putEntry, hm, lookup_cons_of_ne hm]
  | cons q l ih =>
      obtain ⟨k, v⟩ := q
      obtain ⟨hk, hl⟩ := List.nodup_cons.mp hnodup
      by_cases hkn : k = name
      · subst hkn
        have hnone : l.lookup k = none := lookup_eq_none_iff.mpr hk
        by_cases hm : m = k
        · subst hm
          cases value with
          | none => simp [putEntry, hnone]
          | some value => simp [putEntry]
        · cases value with
          | none => simp [putEntry, hm, lookup_cons_of_ne hm]
          | some value => simp [putEntry, hm, lookup_cons_of_ne hm]
      · by_cases hm : m = k
        · subst hm
          simp [putEntry, hkn]
        · simp [putEntry, hkn, lookup_cons_of_ne hm, ih hl]

omit [DecidableEq φ] in
theorem nodup_putEntry (name : ℕ) (value : Option φ) {l : List (ℕ × φ)}
    (hnodup : (l.map Prod.fst).Nodup) : ((putEntry name value l).map Prod.fst).Nodup := by
  induction l with
  | nil => cases value <;> simp [putEntry]
  | cons q l ih =>
      obtain ⟨k, v⟩ := q
      obtain ⟨hk, hl⟩ := List.nodup_cons.mp hnodup
      by_cases hkn : k = name
      · cases value with
        | none => simpa [putEntry, hkn] using hl
        | some value => simpa [putEntry, hkn] using hnodup
      · simp only [putEntry, if_neg hkn, List.map_cons]
        refine List.nodup_cons.mpr ⟨fun hmem => ?_, ih hl⟩
        have hold : l.lookup k = none := lookup_eq_none_iff.mpr hk
        refine lookup_eq_none_iff.mp ?_ hmem
        rw [lookup_putEntry name value hl, if_neg hkn, hold]

/-! ## Tables that are up to date -/

/-- What a table shows of a class: nothing that is missing, and what it has is right
unless it was deleted. -/
def Cached (h : Heap φ) (A : Classes φ) (c : ℕ) : Prop :=
  ∃ table, (h.classes c).hashtable = some table ∧ ∀ name,
    (findFrom table name 3 (hash (h.classes c).hashsize name) = none → A.dispatch c name = none) ∧
    ∀ hx, findFrom table name 3 (hash (h.classes c).hashsize name) = some hx →
      hx.1 ∉ A.deleted → A.dispatch c name = some hx

/-- The program has these classes, and all tables marked as up to date are. -/
structure Refines (h : Heap φ) (A : Classes φ) : Prop where
  tree : Tree h
  count : h.count = A.count
  super : ∀ c, (h.classes c).super = A.super c
  object : ∀ c, (h.classes c).object = A.object c
  slotssofar : ∀ c, (h.classes c).slotssofar = A.slotssofar c
  zombies : h.zombies = A.deleted
  nodup : ∀ c, ((h.classes c).methods.map Prod.fst).Nodup
  live : ∀ c name, (alive h.zombies (h.classes c).methods).lookup name = A.live c name
  cache : ∀ c < h.count, (h.classes c).hashok = true → Cached h A c

variable {h h' : Heap φ} {A A' : Classes φ}

theorem Refines.chain (hr : Refines h A) (c : ℕ) :
    h.chain c = Oostruct.chain A.super A.count c := by
  rw [Heap.chain, hr.count, funext hr.super]

/-- The methods that go into the table of a class are those that it has. -/
theorem Refines.lookup_entries (hr : Refines h A) (cl name : ℕ) :
    ((h.chain cl).flatMap h.entries).lookup name = A.dispatch cl name := by
  rw [lookup_flatMap, hr.chain, Classes.dispatch]
  congr 1
  funext c
  rw [Heap.entries, lookup_map fun f => (f, (h.classes c).slotssofar), hr.live, hr.slotssofar]

/-- Only the classes of the chain matter. -/
theorem dispatch_congr {cl name : ℕ}
    (hchain : Oostruct.chain A'.super A'.count cl = Oostruct.chain A.super A.count cl)
    (heq : ∀ c ∈ Oostruct.chain A.super A.count cl,
      A'.live c name = A.live c name ∧ A'.slotssofar c = A.slotssofar c) :
    A'.dispatch cl name = A.dispatch cl name := by
  rw [Classes.dispatch, Classes.dispatch, hchain]
  generalize Oostruct.chain A.super A.count cl = cs at heq
  induction cs with
  | nil => rfl
  | cons c cs ih =>
      obtain ⟨hlive, hslots⟩ := heq c List.mem_cons_self
      rw [List.findSome?_cons, List.findSome?_cons, hlive, hslots,
        ih fun b hb => heq b (List.mem_cons_of_mem _ hb)]

/-- What is found is alive. -/
theorem not_deleted_of_dispatch {cl name : ℕ} {hx : φ × ℕ} (hd : A.dispatch cl name = some hx) :
    hx.1 ∉ A.deleted := by
  obtain ⟨c, -, hc⟩ := List.exists_of_findSome?_eq_some hd
  obtain ⟨f, hf, rfl⟩ := Option.map_eq_some_iff.mp hc
  simpa using (Option.filter_eq_some_iff.mp hf).2

/-! ## Lookups -/

/-- Marking tables as out of date does no harm. -/
theorem Refines.marked (hr : Refines h A) (hmark : Marked h h') : Refines h' A where
  tree := hmark.tree hr.tree
  count := hmark.count.trans hr.count
  super c := (hmark.super_eq c).trans (hr.super c)
  object c := by rw [hmark.classes c]; exact hr.object c
  slotssofar c := by rw [hmark.classes c]; exact hr.slotssofar c
  zombies := hmark.zombies.trans hr.zombies
  nodup c := by rw [hmark.classes c]; exact hr.nodup c
  live c name := by rw [hmark.classes c, hmark.zombies]; exact hr.live c name
  cache c hc hok := by
    obtain ⟨table, htable, hshown⟩ := hr.cache c (hmark.count ▸ hc) (hmark.hashok c hok)
    refine ⟨table, ?_, ?_⟩
    · rw [hmark.classes c]
      exact htable
    · rw [hmark.classes c]
      exact hshown

theorem Refines.updated {cl : ℕ} (hr : Refines h A) (hup : Updated cl h h') : Refines h' A := by
  have hclass : ∀ c, (h'.classes c).super = (h.classes c).super ∧
      (h'.classes c).subclasses = (h.classes c).subclasses ∧
      (h'.classes c).object = (h.classes c).object ∧
      (h'.classes c).slotssofar = (h.classes c).slotssofar := by
    intro c
    by_cases hc : c = cl
    · rw [hc]
      exact hup.tree
    · rw [hup.classes c hc]
      exact ⟨rfl, rfl, rfl, rfl⟩
  refine ⟨⟨fun c s => ?_, fun c s => ?_⟩, hup.count.trans hr.count, fun c => ?_, fun c => ?_,
    fun c => ?_, hup.zombies.trans hr.zombies, fun c => ?_, fun c name => ?_, fun c hc hok => ?_⟩
  · rw [(hclass c).1]
    exact hr.tree.super_lt c s
  · rw [(hclass c).1, (hclass s).2.1, hup.count]
    exact hr.tree.subclasses c s
  · exact (hclass c).1.trans (hr.super c)
  · exact (hclass c).2.2.1.trans (hr.object c)
  · exact (hclass c).2.2.2.trans (hr.slotssofar c)
  · exact (hr.nodup c).sublist ((hup.sublist c).map Prod.fst)
  · rw [hup.zombies, hup.alive]
    exact hr.live c name
  · by_cases hcl : c = cl
    · subst hcl
      obtain ⟨table, htable, hfind⟩ := hup.table
      refine ⟨table, htable, fun name => ?_⟩
      rw [hfind, hr.lookup_entries]
      exact ⟨id, fun hx hx' _ => hx'⟩
    · rw [hup.count] at hc
      rw [hup.classes c hcl] at hok
      obtain ⟨table, htable, hshown⟩ := hr.cache c hc hok
      refine ⟨table, ?_, ?_⟩
      · rw [hup.classes c hcl]
        exact htable
      · rw [hup.classes c hcl]
        exact hshown

/-- With a table that is up to date `getmethod` finds the method, or a zombie. -/
theorem Refines.getmethodLoop_cached (hr : Refines h A) {cl : ℕ} (hcl : cl < h.count)
    (hok : (h.classes cl).hashok = true) (fuel name : ℕ) :
    getmethodLoop (fuel + 1) h cl name = .ok (h, A.dispatch cl name) ∨
      getmethodLoop (fuel + 1) h cl name =
        (clearHashok h.count h cl).bind fun h => getmethodLoop fuel h cl name := by
  obtain ⟨table, htable, hshown⟩ := hr.cache cl hcl hok
  obtain ⟨hnone, hsome⟩ := hshown name
  rw [getmethodLoop]
  simp only [hok, if_true, Bind.bind, Except.bind, htable]
  cases hfind : findFrom table name 3 (hash (h.classes cl).hashsize name) with
  | none => exact .inl (by rw [hnone hfind])
  | some hx =>
      by_cases hz : hx.1 ∈ h.zombies
      · exact .inr (by simp only [if_pos hz])
      · refine .inl ?_
        simp only [if_neg hz]
        rw [hsome hx hfind (hr.zombies ▸ hz)]

/-- With a table that is out of date `getmethod` finds the method. -/
theorem Refines.getmethodLoop_rebuilt (hr : Refines h A) {cl : ℕ}
    (hok : (h.classes cl).hashok = false) (fuel name : ℕ) :
    ∃ h', getmethodLoop (fuel + 1) h cl name = .ok (h', A.dispatch cl name) ∧ Refines h' A := by
  obtain ⟨h', hrun, hup⟩ := updateHashtable_ok h cl
  obtain ⟨table, htable, hfind⟩ := hup.table
  have hr' := hr.updated hup
  refine ⟨h', ?_, hr'⟩
  rw [getmethodLoop]
  simp only [hok, Bool.false_eq_true, if_false, hrun, Bind.bind, Except.bind, htable, hfind,
    hr.lookup_entries]
  cases hd : A.dispatch cl name with
  | none => rfl
  | some hx =>
      have hz : hx.1 ∉ h'.zombies := by
        rw [hr'.zombies]
        exact not_deleted_of_dispatch hd
      simp only [if_neg hz]

/-- **`getmethod` finds the nearest definition.** -/
theorem Refines.getmethod (hr : Refines h A) {cl : ℕ} (hcl : cl < h.count) (name : ℕ) :
    ∃ h', getmethod h cl name = .ok (h', A.dispatch cl name) ∧ Refines h' A := by
  rw [Oostruct.getmethod]
  cases hok : (h.classes cl).hashok with
  | false => exact hr.getmethodLoop_rebuilt hok 1 name
  | true =>
      rcases hr.getmethodLoop_cached hcl hok 1 name with hfound | hzombie
      · exact ⟨h, hfound, hr⟩
      · obtain ⟨h1, hclear, hmark, hout⟩ := clearHashok_ok hr.tree hcl (Nat.le_add_right _ _)
        have hself : cl ∈ h.chain cl := by
          rw [Heap.chain, chain_cons hr.tree.super_lt hcl]
          exact List.mem_cons_self
        have hok1 : (h1.classes cl).hashok = false := by
          rw [← Bool.not_eq_true]
          exact fun hok1 => hout cl hcl hok1 hself
        rw [hzombie, hclear]
        exact (hr.marked hmark).getmethodLoop_rebuilt hok1 0 name

/-! ## Changes -/

omit [DecidableEq φ] in
theorem Classes.put_definition (A : Classes φ) (cl name : ℕ) (value : Option φ) (m : ℕ) :
    (A.put cl name value).definition cl m = if m = name then value else A.definition cl m := by
  simp only [Classes.put, Function.update_self]
  exact Function.update_apply ..

theorem Classes.put_live {c cl : ℕ} (hc : c ≠ cl) (name : ℕ) (value : Option φ) (m : ℕ) :
    (A.put cl name value).live c m = A.live c m := by
  have hsame : (A.put cl name value).definition c = A.definition c := Function.update_of_ne hc ..
  exact congrArg (fun d : ℕ → Option φ => (d m).filter (· ∉ A.deleted)) hsame

theorem Classes.new_live {c : ℕ} (hc : c ≠ A.count) (super : Option ℕ) (object : Bool) (slots m : ℕ) :
    (A.new super object slots).live c m = A.live c m := by
  have hsame : (A.new super object slots).definition c = A.definition c :=
    Function.update_of_ne hc ..
  exact congrArg (fun d : ℕ → Option φ => (d m).filter (· ∉ A.deleted)) hsame

/-- A method is put, replaced or removed.  The tables of the class and of its subclasses
are out of date then, and no others have anything to do with the class. -/
theorem Refines.put (hr : Refines h A) {cl : ℕ} (hcl : cl < h.count) (name : ℕ) {value : Option φ}
    (halive : ∀ f ∈ h.zombies, value ≠ some f) :
    ∃ h', putmethod h cl name value = .ok h' ∧ Refines h' (A.put cl name value) := by
  obtain ⟨h1, hclear, hmark, hout⟩ := clearHashok_ok hr.tree hcl (Nat.le_add_right _ _)
  have hr1 := hr.marked hmark
  set h' := h1.set cl
    { h1.classes cl with methods := putEntry name value (h1.classes cl).methods } with hh'
  have hother : ∀ c ≠ cl, h'.classes c = h1.classes c := fun c hc => by simp [hh', Heap.set, hc]
  have hself : h'.classes cl =
      { h1.classes cl with methods := putEntry name value (h1.classes cl).methods } := by
    simp [hh', Heap.set]
  have hclass : ∀ c, h'.classes c = { h1.classes c with methods := (h'.classes c).methods } := by
    intro c
    by_cases hc : c = cl
    · rw [hc, hself]
    · rw [hother c hc]
  refine ⟨h', ?_, ⟨fun c s => ?_, fun c s => ?_⟩, hr1.count, fun c => ?_, fun c => ?_, fun c => ?_,
    hr1.zombies, fun c => ?_, fun c m => ?_, fun c hc hok => ?_⟩
  · rw [putmethod, if_neg (not_le.mpr hcl), if_neg (by simpa using halive), hclear]
    rfl
  · rw [hclass c]
    exact hr1.tree.super_lt c s
  · rw [hclass c, hclass s]
    exact hr1.tree.subclasses c s
  · rw [hclass c]
    exact hr1.super c
  · rw [hclass c]
    exact hr1.object c
  · rw [hclass c]
    exact hr1.slotssofar c
  · by_cases hc : c = cl
    · rw [hc, hself]
      exact nodup_putEntry name value (hr1.nodup cl)
    · rw [hother c hc]
      exact hr1.nodup c
  · by_cases hc : c = cl
    · subst hc
      have hold := hr1.live c m
      rw [alive, lookup_filter (p := fun f => decide (f ∉ h1.zombies)) (hr1.nodup c)] at hold
      rw [hself, alive, lookup_filter (p := fun f => decide (f ∉ h'.zombies))
        (nodup_putEntry name value (hr1.nodup c)), lookup_putEntry name value (hr1.nodup c),
        Classes.live, Classes.put_definition]
      by_cases hm : m = name
      · rw [if_pos hm, if_pos hm]
        exact congrArg (fun z : List φ => value.filter fun f => decide (f ∉ z)) hr1.zombies
      · rw [if_neg hm, if_neg hm]
        exact hold
    · rw [hother c hc, Classes.put_live hc]
      exact hr1.live c m
  · have hc' : c < h.count := hmark.count ▸ hc
    rw [hclass c] at hok
    have hnot : cl ∉ Oostruct.chain A.super A.count c := by
      rw [← hr.chain]
      exact hout c hc' hok
    have hsame : ∀ m, (A.put cl name value).dispatch c m = A.dispatch c m := fun m => by
      refine dispatch_congr rfl fun b hb => ⟨?_, rfl⟩
      have hne : b ≠ cl := by
        rintro rfl
        exact hnot hb
      exact Classes.put_live hne name value m
    obtain ⟨table, htable, hshown⟩ := hr1.cache c hc hok
    refine ⟨table, by rw [hclass c]; exact htable, fun m => ?_⟩
    rw [hsame, hclass c]
    exact hshown m

/-- A new class, with or without a superclass.  It has no subclasses and no methods. -/
theorem Refines.newClass (hr : Refines h A) (super : Option ℕ) (object : Bool) (slots : ℕ)
    (htree : Tree h') (hcount : h'.count = h.count + 1) (hzombies : h'.zombies = h.zombies)
    (hnew : h'.classes h.count = ⟨super, [], object, slots, [], none, 0, false⟩)
    (hold : ∀ c ≠ h.count, h'.classes c =
      { h.classes c with subclasses := (h'.classes c).subclasses }) :
    Refines h' (A.new super object slots) := by
  have hlt : ∀ c s, A.super c = some s → s < c := fun c s hs =>
    hr.tree.super_lt c s ((hr.super c).trans hs)
  have hcountA := hr.count
  rw [hr.count] at hnew hold
  refine ⟨htree, ?_, fun c => ?_, fun c => ?_, fun c => ?_, hzombies.trans hr.zombies,
    fun c => ?_, fun c m => ?_, fun c hc hok => ?_⟩
  · rw [hcount, hr.count]
    rfl
  all_goals by_cases hcA : c = A.count
  · rw [hcA, hnew]
    simp [Classes.new]
  · rw [hold c hcA]
    exact (hr.super c).trans (Function.update_of_ne hcA ..).symm
  · rw [hcA, hnew]
    simp [Classes.new]
  · rw [hold c hcA]
    exact (hr.object c).trans (Function.update_of_ne hcA ..).symm
  · rw [hcA, hnew]
    simp [Classes.new]
  · rw [hold c hcA]
    exact (hr.slotssofar c).trans (Function.update_of_ne hcA ..).symm
  · rw [hcA, hnew]
    exact List.nodup_nil
  · rw [hold c hcA]
    exact hr.nodup c
  · rw [hcA, hnew]
    simp [Classes.live, Classes.new, alive]
  · rw [hold c hcA, Classes.new_live hcA, hzombies]
    exact hr.live c m
  · rw [hcA, hnew] at hok
    exact absurd hok Bool.false_ne_true
  · have hc' : c < A.count := by
      rw [hcount, hr.count] at hc
      omega
    rw [hold c hcA] at hok
    obtain ⟨table, htable, hshown⟩ := hr.cache c (hr.count.symm ▸ hc') hok
    refine ⟨table, by rw [hold c hcA]; exact htable, fun m => ?_⟩
    have hchain : Oostruct.chain (A.new super object slots).super (A.new super object slots).count c =
        Oostruct.chain A.super A.count c := by
      have hsame : ∀ a ≤ c, (A.new super object slots).super a = A.super a :=
        fun a ha => Function.update_of_ne (by omega) ..
      rw [chain_congr hlt hsame, chain_eq hlt hc']
      exact chain_eq hlt (hc'.trans (Nat.lt_succ_self _))
    have hdispatch : (A.new super object slots).dispatch c m = A.dispatch c m := by
      refine dispatch_congr hchain fun b hb => ?_
      have hbc : b ≤ c := le_of_mem_chain hlt hb
      have hbA : b ≠ A.count := by omega
      exact ⟨Classes.new_live hbA .., Function.update_of_ne hbA ..⟩
    rw [hdispatch, hold c hcA]
    exact hshown m

theorem Refines.define (hr : Refines h A) : Refines (classDefine h) (A.new none false 0) := by
  have hother : ∀ c ≠ h.count, (classDefine h).classes c = h.classes c :=
    fun c hc => Function.update_of_ne hc ..
  have hself : (classDefine h).classes h.count = rootClass φ false := Function.update_self ..
  refine hr.newClass none false 0 ⟨fun c s hs => ?_, fun c s => ?_⟩ rfl rfl hself
    fun c hc => by rw [hother c hc]
  · by_cases hc : c = h.count
    · rw [hc, hself] at hs
      exact absurd hs (by simp [rootClass])
    · rw [hother c hc] at hs
      exact hr.tree.super_lt c s hs
  · change _ ↔ c < h.count + 1 ∧ _
    have hsub := hr.tree.subclasses c s
    by_cases hs : s = h.count
    · rw [hs, hself]
      refine iff_of_false List.not_mem_nil ?_
      rintro ⟨hlt, hsuper⟩
      by_cases hc : c = h.count
      · rw [hc, hself] at hsuper
        exact absurd hsuper (by simp [rootClass])
      · rw [hother c hc] at hsuper
        have := hr.tree.super_lt c _ hsuper
        omega
    · rw [hother s hs, hsub]
      by_cases hc : c = h.count
      · rw [hc, hself]
        simp [rootClass]
      · rw [hother c hc]
        exact and_congr_left' (by omega)

theorem Refines.make (hr : Refines h A) {superclass : ℕ} (hlt : superclass < h.count)
    (hobject : (h.classes superclass).object = true) (slots : ℕ) :
    ∃ h', newOoclass h superclass slots = .ok h' ∧
      Refines h' (A.new (some superclass) true (A.slotssofar superclass + slots)) := by
  set h1 := h.set superclass { h.classes superclass with
    subclasses := h.count :: (h.classes superclass).subclasses } with hh1
  set h' : Heap φ := { h1.set h.count ⟨some superclass, [], true,
    (h.classes superclass).slotssofar + slots, [], none, 0, false⟩ with count := h.count + 1 } with hh'
  have hself : h'.classes h.count = ⟨some superclass, [], true,
      (h.classes superclass).slotssofar + slots, [], none, 0, false⟩ := Function.update_self ..
  have hother : ∀ c ≠ h.count, h'.classes c = h1.classes c :=
    fun c hc => Function.update_of_ne hc ..
  have hsuperclass : h1.classes superclass = { h.classes superclass with
      subclasses := h.count :: (h.classes superclass).subclasses } := Function.update_self ..
  have hrest : ∀ c ≠ superclass, h1.classes c = h.classes c :=
    fun c hc => Function.update_of_ne hc ..
  have hold : ∀ c ≠ h.count, h'.classes c =
      { h.classes c with subclasses := (h'.classes c).subclasses } := by
    intro c hc
    rw [hother c hc]
    by_cases hcs : c = superclass
    · rw [hcs, hsuperclass]
    · rw [hrest c hcs]
  have hsuper : ∀ c ≠ h.count, (h'.classes c).super = (h.classes c).super :=
    fun c hc => by rw [hold c hc]
  refine ⟨h', ?_, hr.newClass (some superclass) true _ ⟨fun c s hs => ?_, fun c s => ?_⟩ rfl rfl ?_
    hold⟩
  · rw [newOoclass, if_neg (not_le.mpr hlt), if_neg (by simp [hobject])]
    rfl
  · by_cases hc : c = h.count
    · rw [hc, hself] at hs
      cases hs
      exact hc ▸ hlt
    · rw [hsuper c hc] at hs
      exact hr.tree.super_lt c s hs
  · change _ ↔ c < h.count + 1 ∧ _
    have hsub := hr.tree.subclasses c s
    by_cases hs : s = h.count
    · rw [hs, hself]
      refine iff_of_false List.not_mem_nil ?_
      rintro ⟨hc, hcs⟩
      by_cases hcc : c = h.count
      · rw [hcc, hself] at hcs
        exact absurd (Option.some.inj hcs) (Nat.ne_of_lt hlt)
      · rw [hsuper c hcc] at hcs
        have := hr.tree.super_lt c _ hcs
        omega
    · rw [hother s hs]
      by_cases hss : s = superclass
      · rw [hss, hsuperclass, List.mem_cons, ← hss, hsub]
        by_cases hc : c = h.count
        · rw [hc, hself]
          simp [hss]
        · rw [hsuper c hc]
          simp only [hc, false_or]
          exact and_congr_left' (by omega)
      · rw [hrest s hss, hsub]
        by_cases hc : c = h.count
        · rw [hc, hself]
          simp [Ne.symm hss]
        · rw [hsuper c hc]
          exact and_congr_left' (by omega)
  · rw [hself, hr.slotssofar]

theorem live_delete (A : Classes φ) (f : φ) (c m : ℕ) :
    Classes.live { A with deleted := f :: A.deleted } c m = (A.live c m).filter (· ≠ f) := by
  rw [Classes.live, Classes.live, Option.filter_filter]
  congr 1
  funext g
  simp [Bool.and_comm]

/-- What was found is still found when another function is deleted, and nothing comes
up where there was nothing. -/
theorem dispatch_delete (A : Classes φ) (f : φ) (cl m : ℕ) :
    (A.dispatch cl m = none →
      Classes.dispatch { A with deleted := f :: A.deleted } cl m = none) ∧
    ∀ hx, hx.1 ≠ f → A.dispatch cl m = some hx →
      Classes.dispatch { A with deleted := f :: A.deleted } cl m = some hx := by
  unfold Classes.dispatch
  simp only [live_delete]
  generalize Oostruct.chain A.super A.count cl = cs
  induction cs with
  | nil => exact ⟨fun _ => rfl, fun hx _ h => h⟩
  | cons c cs ih =>
      simp only [List.findSome?_cons]
      cases A.live c m with
      | none => exact ih
      | some g =>
          refine ⟨fun h => absurd h (by simp), fun hx hne h => ?_⟩
          obtain rfl : (g, A.slotssofar c) = hx := Option.some.inj h
          rw [Option.filter_some_pos (by simpa using hne)]
          rfl

/-- A function is deleted: tables that still have it are no worse than before. -/
theorem Refines.delete (hr : Refines h A) (f : φ) :
    Refines { h with zombies := f :: h.zombies } { A with deleted := f :: A.deleted } := by
  refine ⟨⟨hr.tree.super_lt, hr.tree.subclasses⟩, hr.count, hr.super, hr.object, hr.slotssofar, ?_,
    hr.nodup, fun c m => ?_, fun c hc hok => ?_⟩
  · exact congrArg (f :: ·) hr.zombies
  · have halive : alive (f :: h.zombies) (h.classes c).methods =
        (alive h.zombies (h.classes c).methods).filter fun q => decide (q.2 ≠ f) := by
      rw [alive, alive, List.filter_filter]
      congr 1
      funext q
      simp
    have hnodup : ((alive h.zombies (h.classes c).methods).map Prod.fst).Nodup :=
      (hr.nodup c).sublist (List.filter_sublist.map Prod.fst)
    change (alive (f :: h.zombies) (h.classes c).methods).lookup m = _
    rw [halive, lookup_filter (p := fun g => decide (g ≠ f)) hnodup, hr.live, live_delete]
  · obtain ⟨table, htable, hshown⟩ := hr.cache c hc hok
    refine ⟨table, htable, fun m => ?_⟩
    obtain ⟨hnone, hsome⟩ := hshown m
    obtain ⟨hnone', hsome'⟩ := dispatch_delete A f c m
    refine ⟨fun hfind => hnone' (hnone hfind), fun hx hfind hx' => ?_⟩
    rw [List.mem_cons, not_or] at hx'
    exact hsome' hx hx'.1 (hsome hx hfind hx'.2)

/-! ## Runs -/

/-- **Every operation keeps the tables that are marked as up to date in order.** -/
theorem Refines.after (hr : Refines h A) (operation : Operation φ) :
    Refines (h.after operation) (A.after operation) := by
  have hdone : ∀ {h'}, perform h operation = .ok h' → h.after operation = h' := fun hrun => by
    rw [Heap.after, hrun]
    rfl
  have hfault : ∀ {e}, perform h operation = .error e → h.after operation = h := fun hrun => by
    rw [Heap.after, hrun]
    rfl
  cases operation with
  | define =>
      rw [hdone rfl]
      exact hr.define
  | make superclass slots =>
      rw [Classes.after, ← hr.count, ← hr.object]
      by_cases hlt : superclass < h.count
      · by_cases hobject : (h.classes superclass).object = true
        · obtain ⟨h', hrun, hr'⟩ := hr.make hlt hobject slots
          rw [hdone hrun, if_pos ⟨hlt, hobject⟩]
          exact hr'
        · rw [hfault (e := .error "superclass does not inherit class <object>") (by
            rw [perform, newOoclass, if_neg (not_le.mpr hlt), if_pos (by simpa using hobject)]),
            if_neg (fun hboth => hobject hboth.2)]
          exact hr
      · rw [hfault (e := .error "not a class") (by
          rw [perform, newOoclass, if_pos (not_lt.mp hlt)]), if_neg (fun hboth => hlt hboth.1)]
        exact hr
  | put cl name value =>
      rw [Classes.after, ← hr.count, ← hr.zombies]
      by_cases hlt : cl < h.count
      · by_cases halive : ∀ f ∈ h.zombies, value ≠ some f
        · obtain ⟨h', hrun, hr'⟩ := hr.put hlt name halive
          rw [hdone hrun, if_pos ⟨hlt, halive⟩]
          exact hr'
        · rw [hfault (e := .error "Not a function") (by
            rw [perform, putmethod, if_neg (not_le.mpr hlt), if_pos (by simpa using halive)]),
            if_neg (fun hboth => halive hboth.2)]
          exact hr
      · rw [hfault (e := .error "Not a class") (by
          rw [perform, putmethod, if_pos (not_lt.mp hlt)]), if_neg (fun hboth => hlt hboth.1)]
        exact hr
  | get cl name =>
      rw [Classes.after]
      by_cases hlt : cl < h.count
      · obtain ⟨h', hrun, hr'⟩ := hr.getmethod hlt name
        have hperform : perform h (.get cl name) = .ok h' := by
          rw [perform, if_neg (not_le.mpr hlt), hrun]
          rfl
        rw [hdone hperform]
        exact hr'
      · rw [hfault (e := .error "not a class") (by rw [perform, if_pos (not_lt.mp hlt)])]
        exact hr
  | delete f =>
      rw [hdone rfl]
      exact hr.delete f

theorem refines_init : Refines (init φ) (Classes.init φ) where
  tree := ⟨fun _ _ hs => absurd hs (by simp [init, rootClass]), by simp [init, rootClass]⟩
  count := rfl
  super _ := rfl
  object _ := rfl
  slotssofar _ := rfl
  zombies := rfl
  nodup _ := List.nodup_nil
  live _ _ := rfl
  cache _ _ hok := absurd hok Bool.false_ne_true

theorem Refines.run (hr : Refines h A) (operations : List (Operation φ)) :
    Refines (operations.foldl Heap.after h) (operations.foldl Classes.after A) := by
  induction operations generalizing h A with
  | nil => exact hr
  | cons operation operations ih => exact ih (hr.after operation)

/-- **Method dispatch is nearest-definition.**  After any sequence of class definitions,
methods put, replaced and removed, lookups and deletions of functions, `getmethod`
returns the function last put for the name in the first class, along the superclasses,
that has one which is alive, with the slots of that class, and `NIL` when there is none. -/
theorem getmethod_nearest (operations : List (Operation φ)) (cl : ℕ)
    (hcl : cl < (operations.foldl Classes.after (Classes.init φ)).count) (name : ℕ) :
    ∃ h, getmethod (operations.foldl Heap.after (init φ)) cl name =
      .ok (h, (operations.foldl Classes.after (Classes.init φ)).dispatch cl name) := by
  have hr : Refines (operations.foldl Heap.after (init φ))
    (operations.foldl Classes.after (Classes.init φ)) := refines_init.run operations
  obtain ⟨h, hrun, -⟩ := hr.getmethod (hr.count ▸ hcl) name
  exact ⟨h, hrun⟩

theorem getmethod_nearest_deleted :
    ∃ h, getmethod ([.make 0 2, .put 0 5 (some true), .put 1 5 (some false), .get 1 5,
      .delete false].foldl Heap.after (init Bool)) 1 5 = .ok (h, some (true, 0)) :=
  getmethod_nearest [.make 0 2, .put 0 5 (some true), .put 1 5 (some false), .get 1 5,
    .delete false] 1 (by decide) 5

end Lush.Oostruct
