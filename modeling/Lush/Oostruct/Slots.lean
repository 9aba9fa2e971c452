import Lush.Ints
import Lush.Oostruct.Dispatch

/-!
# Slots

An object has the slots of its class first, then those of the superclass, and so on.
`letslot` binds the last ones of them, as many as the class of the method has with its
superclasses (`slotssofar`), and `this`, while the method runs.  The number zero means all
slots, and then a method of a class without slots sees the slots of the subclasses
(`sees_iff`).
-/

namespace Lush.Oostruct

variable {φ : Type}

/-! ## Classes with slots -/

/-- An operation, where a class is made with the list of its slots. -/
inductive Definition (φ : Type)
  | define
  | make (superclass : ℕ) (keylist : List ℕ)
  | put (cl name : ℕ) (value : Option φ)
  | get (cl name : ℕ)
  | delete (f : φ)

def Definition.operation : Definition φ → Operation φ
  | .define => .define
  | .make superclass keylist => .make superclass keylist.length
  | .put cl name value => .put cl name value
  | .get cl name => .get cl name
  | .delete f => .delete f

/-- The classes with the lists of their own slots. -/
structure Slotted (φ : Type) where
  classes : Classes φ
  keylist : ℕ → List ℕ

/-- The classes after a definition.  `keylist` is set when the class is made. -/
def Slotted.after [DecidableEq φ] (S : Slotted φ) (d : Definition φ) : Slotted φ where
  classes := S.classes.after d.operation
  keylist :=
    match d with
    | .make superclass keylist =>
        if superclass < S.classes.count ∧ S.classes.object superclass = true then
          Function.update S.keylist S.classes.count keylist
        else S.keylist
    | _ => S.keylist

/-- The class `object` has no slots. -/
def Slotted.init (φ : Type) : Slotted φ := ⟨Classes.init φ, fun _ => []⟩

/-- The class and its superclasses. -/
def Slotted.chain (S : Slotted φ) (cl : ℕ) : List ℕ :=
  Oostruct.chain S.classes.super S.classes.count cl

/-! ## Objects and bindings -/

/-- An `oostruct`, with the symbols of its slots. -/
structure Object where
  id : ℕ
  slots : List ℕ

/-- `new_oostruct`.  It writes the slots of the classes one after another, where
`slotssofar` slots were allocated. -/
def newOostruct (S : Slotted φ) (cl id : ℕ) : Except Fault Object :=
  let slots := (S.chain cl).flatMap S.keylist
  if S.classes.object cl = false then .error (.error "class is not a subclass of ::class:object")
  else if slots.length = S.classes.slotssofar cl then .ok ⟨id, slots⟩
  else .error .undefined

/-- A binding of a symbol: it has a value of its own, or that of a slot of an object. -/
inductive Binding
  | value (v : ℕ)
  | slot (id i : ℕ)

/-- The bindings of each symbol, the last one first. -/
abbrev Stacks := ℕ → List Binding

def push (s : Stacks) (symb : ℕ) (b : Binding) : Stacks := Function.update s symb (b :: s symb)

def pop (s : Stacks) (symb : ℕ) : Except Fault Stacks :=
  match s symb with
  | [] => .error .undefined
  | _ :: rest => .ok (Function.update s symb rest)

/-- The loop of `letslot` that stacks the slots, from the one before the `n`th down. -/
def stackSlots (o : Object) (howmuch : ℕ) : ℕ → Stacks → Stacks
  | 0, s => s
  | i + 1, s =>
      if howmuch ≤ i then stackSlots o howmuch i (push s (o.slots.getD i 0) (.slot o.id i)) else s

/-- The loop that unstacks so many slots, from the `i`th up. -/
def unstackSlots (o : Object) : ℕ → ℕ → Stacks → Except Fault Stacks
  | 0, _, s => .ok s
  | n + 1, i, s => do
      let s ← pop s (o.slots.getD i 0)
      unstackSlots o n (i + 1) s

/-- `letslot` on an `oostruct`.  `apply` is what applying the function does to the
bindings. -/
def letslot (this : ℕ) (apply : Stacks → Except Fault Stacks) (o : Object) (howmuch : ℤ)
    (s : Stacks) : Except Fault Stacks := do
  let howmuch := if 0 < howmuch then (o.slots.length - howmuch).toNat else 0
  let stacked := stackSlots o howmuch o.slots.length s
  let s ← apply (push stacked this (.value o.id))
  -- `this` gets back the binding that was below the new one
  unstackSlots o (o.slots.length - howmuch) howmuch (Function.update s this (stacked this))

/-- The kinds of functions. -/
inductive Kind
  | de
  | df
  | dm
  | other

/-- What the evaluator does to the bindings: for the arguments of the call, for the
function, for the expansion of a macro and for a function that is not interpreted. -/
structure Evaluator where
  args : Stacks → Except Fault Stacks
  apply : Stacks → Except Fault Stacks
  expansion : Stacks → Except Fault Stacks
  primitive : Stacks → Except Fault Stacks

/-- `call_method`. -/
def callMethod (this : ℕ) (ev : Evaluator) (kind : Kind) (o : Object) (sofar : ℕ) (s : Stacks) :
    Except Fault Stacks :=
  match kind with
  | .de => do
      let s ← ev.args s
      letslot this ev.apply o sofar s
  | .df => letslot this ev.apply o sofar s
  | .dm => do
      let s ← letslot this ev.apply o sofar s
      ev.expansion s
  | .other => ev.primitive s

/-! ## The number of slots -/

/-- `slotssofar` is the number of slots of a class and its superclasses. -/
structure Laid (S : Slotted φ) : Prop where
  super_lt : ∀ c s, S.classes.super c = some s → s < c
  outside : ∀ c, S.classes.count ≤ c → S.classes.super c = none ∧ S.keylist c = []
  sofar : ∀ c, S.classes.slotssofar c =
    (S.keylist c).length + ((S.classes.super c).map S.classes.slotssofar).getD 0

variable {S : Slotted φ} {c cl : ℕ}

/-- A class that is made after the others. -/
theorem Laid.new (h : Laid S) (super : Option ℕ) (hsuper : ∀ s ∈ super, s < S.classes.count)
    (object : Bool) (keys : List ℕ) :
    Laid ⟨S.classes.new super object
        ((super.map S.classes.slotssofar).getD 0 + keys.length),
      Function.update S.keylist S.classes.count keys⟩ where
  super_lt c s hs := by
    by_cases hc : c = S.classes.count
    · subst hc
      simp only [Classes.new, Function.update_self] at hs
      exact hsuper s hs
    · simp only [Classes.new, Function.update_of_ne hc] at hs
      exact h.super_lt c s hs
  outside c hc := by
    have hc' : S.classes.count + 1 ≤ c := hc
    have hne : c ≠ S.classes.count := by omega
    simp only [Classes.new, Function.update_of_ne hne]
    exact h.outside c (by omega)
  sofar c := by
    have hother : ∀ s, s ≠ S.classes.count →
        Function.update S.classes.slotssofar S.classes.count
          ((super.map S.classes.slotssofar).getD 0 + keys.length) s = S.classes.slotssofar s :=
      fun s hs => Function.update_of_ne hs _ _
    by_cases hc : c = S.classes.count
    · subst hc
      simp only [Classes.new, Function.update_self]
      cases super with
      | none => simp
      | some s =>
          have hs := (hsuper s rfl).ne
          simp only [Option.map_some, Option.getD_some, Function.update_of_ne hs]
          exact add_comm _ _
    · simp only [Classes.new, Function.update_of_ne hc]
      rw [h.sofar c]
      cases hs : S.classes.super c with
      | none => rfl
      | some s =>
          have hsc : s ≠ S.classes.count := by
            rintro rfl
            have hlt := h.super_lt c _ hs
            rw [(h.outside c hlt.le).1] at hs
            cases hs
          simp only [Option.map_some, Option.getD_some, Function.update_of_ne hsc]

theorem Laid.after [DecidableEq φ] (h : Laid S) (d : Definition φ) : Laid (S.after d) := by
  cases d with
  | make superclass keylist =>
      by_cases hok : superclass < S.classes.count ∧ S.classes.object superclass = true
      · have hnew := h.new (some superclass) (by rintro s ⟨⟩; exact hok.1) true keylist
        simp only [Option.map_some, Option.getD_some] at hnew
        simpa only [Slotted.after, Definition.operation, Classes.after, if_pos hok] using hnew
      · simpa only [Slotted.after, Definition.operation, Classes.after, if_neg hok] using h
  | define =>
      have hnew := h.new none (by simp) false []
      have hkeys : Function.update S.keylist S.classes.count [] = S.keylist :=
        Function.update_eq_self_iff.mpr (h.outside _ le_rfl).2.symm
      rw [hkeys] at hnew
      exact hnew
  | put cl name value =>
      simp only [Slotted.after, Definition.operation, Classes.after]
      split_ifs
      · exact ⟨h.super_lt, h.outside, h.sofar⟩
      · exact h
  | get cl name => exact h
  | delete f => exact ⟨h.super_lt, h.outside, h.sofar⟩

theorem Laid.run [DecidableEq φ] (h : Laid S) (ds : List (Definition φ)) : Laid (ds.foldl Slotted.after S) := by
  induction ds generalizing S with
  | nil => exact h
  | cons d ds ih => exact ih (h.after d)

theorem laid_init : Laid (Slotted.init φ) where
  super_lt _ _ hs := by cases hs
  outside _ _ := ⟨rfl, rfl⟩
  sofar _ := rfl

/-! ## Chains -/

theorem Laid.chain_cons (h : Laid S) (hcl : cl < S.classes.count) :
    S.chain cl = cl :: ((S.classes.super cl).map S.chain).getD [] :=
  Oostruct.chain_cons h.super_lt hcl

/-- All slots that an object has were allocated. -/
theorem Laid.length_slots (h : Laid S) (hcl : cl < S.classes.count) :
    ((S.chain cl).flatMap S.keylist).length = S.classes.slotssofar cl := by
  induction cl using Nat.strong_induction_on with
  | _ cl ih =>
      rw [h.chain_cons hcl, List.flatMap_cons, List.length_append, h.sofar cl]
      cases hs : S.classes.super cl with
      | none => rfl
      | some s =>
          have hlt := h.super_lt cl s hs
          simp only [Option.map_some, Option.getD_some]
          rw [ih s hlt (hlt.trans hcl)]

/-- The chain of a superclass is the end of that of the class, after the subclasses. -/
theorem Laid.chain_suffix (h : Laid S) (hcl : cl < S.classes.count) (hc : c ∈ S.chain cl) :
    ∃ subs, S.chain cl = subs ++ S.chain c ∧ ∀ b ∈ subs, b ∉ S.chain c := by
  induction cl using Nat.strong_induction_on with
  | _ cl ih =>
      by_cases heq : c = cl
      · exact ⟨[], by rw [heq]; rfl, by simp⟩
      · rw [h.chain_cons hcl] at hc ⊢
        cases hs : S.classes.super cl with
        | none =>
            rw [hs] at hc
            exact absurd (List.mem_singleton.mp hc) heq
        | some s =>
            have hlt := h.super_lt cl s hs
            rw [hs, Option.map_some, Option.getD_some] at hc
            have hcs := (List.mem_cons.mp hc).resolve_left heq
            obtain ⟨subs, hsubs, hnot⟩ := ih s hlt (hlt.trans hcl) hcs
            refine ⟨cl :: subs, by rw [Option.map_some, Option.getD_some, hsubs]; rfl, ?_⟩
            intro b hb hbc
            rcases List.mem_cons.mp hb with rfl | hb
            · have hle := le_of_mem_chain h.super_lt hbc
              have hle' := le_of_mem_chain h.super_lt hcs
              omega
            · exact hnot b hb hbc

theorem Laid.lt_of_mem_chain (h : Laid S) (hcl : cl < S.classes.count) (hc : c ∈ S.chain cl) :
    c < S.classes.count :=
  (le_of_mem_chain h.super_lt hc).trans_lt hcl

/-! ## The bindings of a method -/

/-- The slots of an object, with the classes that they belong to. -/
def Slotted.layout (S : Slotted φ) (cl : ℕ) : List (ℕ × ℕ) :=
  (S.chain cl).flatMap fun b => (S.keylist b).map fun z => (b, z)

/-- The slots with the name `z` of an object of the class `cl` that belong to the class
`c` or its superclasses, the nearest first. -/
def Slotted.visible (S : Slotted φ) (cl c z : ℕ) : List ℕ :=
  (List.range (S.layout cl).length).filter fun i =>
    decide (∃ b ∈ S.chain c, (S.layout cl)[i]? = some (b, z))

/-- The bindings that a function is applied with. -/
def entered (this : ℕ) (o : Object) (sofar : ℕ) (s : Stacks) : Stacks :=
  let howmuch := if 0 < (sofar : ℤ) then (o.slots.length - (sofar : ℤ)).toNat else 0
  push (stackSlots o howmuch o.slots.length s) this (.value o.id)

/-- A method of the class `c` sees the slots of `c` and of its superclasses, above the
bindings that there were, and when it returns the bindings are what they were. -/
structure Sees (S : Slotted φ) (cl c this : ℕ) (o : Object) (sofar : ℕ)
    (apply : Stacks → Except Fault Stacks) (s : Stacks) : Prop where
  bound : ∀ z, entered this o sofar s z =
    (if z = this then [.value o.id] else []) ++ (S.visible cl c z).map (.slot o.id) ++ s z
  restored : ∀ s', apply (entered this o sofar s) = .ok s' →
    letslot this apply o sofar s = .ok s

/-- The function leaves as many bindings as it found, and those that were there before the
call are the same. -/
def Leaves (this : ℕ) (before entered after : Stacks) : Prop :=
  ∀ z ≠ this, ∃ top, after z = top ++ before z ∧
    top.length + (before z).length = (entered z).length

variable {o : Object} {s s' : Stacks} {first n i z : ℕ}

/-- The slots with a name, from the `i`th up. -/
def named (o : Object) (z i n : ℕ) : List ℕ :=
  (List.range' i n).filter fun j => o.slots.getD j 0 = z

theorem named_succ_right (o : Object) (z i n : ℕ) :
    named o z i (n + 1) = named o z i n ++ if o.slots.getD (i + n) 0 = z then [i + n] else [] := by
  unfold named
  rw [List.range'_concat, List.filter_append, one_mul, List.filter_cons, List.filter_nil]
  simp only [decide_eq_true_eq]

theorem named_succ_left (o : Object) (z i n : ℕ) :
    named o z i (n + 1) = (if o.slots.getD i 0 = z then [i] else []) ++ named o z (i + 1) n := by
  unfold named
  rw [List.range'_succ, List.filter_cons]
  split_ifs with hz hz' hz' <;> simp_all

/-- The first slot comes to lie above the others. -/
theorem stackSlots_eq (o : Object) (first n : ℕ) (s : Stacks) (z : ℕ) :
    stackSlots o first (first + n) s z = (named o z first n).map (.slot o.id) ++ s z := by
  induction n generalizing s with
  | zero =>
      cases first with
      | zero => rfl
      | succ i =>
          rw [Nat.add_zero, stackSlots, if_neg (Nat.not_succ_le_self i)]
          rfl
  | succ n ih =>
      rw [← Nat.add_assoc, stackSlots, if_pos (Nat.le_add_right first n), ih, named_succ_right,
        List.map_append, List.append_assoc]
      congr 1
      unfold push
      by_cases hz : o.slots.getD (first + n) 0 = z
      · subst hz
        rw [Function.update_self, if_pos rfl]
        rfl
      · rw [Function.update_of_ne (Ne.symm hz), if_neg hz]
        rfl

/-- As many bindings are taken away as there are slots with the name. -/
theorem unstackSlots_iff (o : Object) (n i : ℕ) (s s' : Stacks) :
    unstackSlots o n i s = .ok s' ↔
      ∀ z, ∃ top, s z = top ++ s' z ∧ top.length = (named o z i n).length := by
  induction n generalizing i s with
  | zero =>
      constructor
      · intro h z
        cases h
        exact ⟨[], rfl, rfl⟩
      · intro h
        have heq : s = s' := by
          funext z
          obtain ⟨top, htop, hlen⟩ := h z
          rw [List.eq_nil_of_length_eq_zero hlen] at htop
          exact htop
        rw [heq, unstackSlots]
  | succ n ih =>
      rw [unstackSlots]
      cases hs : s (o.slots.getD i 0) with
      | nil =>
          have hpop : pop s (o.slots.getD i 0) = .error .undefined := by rw [pop, hs]
          rw [hpop]
          refine iff_of_false (fun h => by cases h) fun h => ?_
          obtain ⟨top, htop, hlen⟩ := h (o.slots.getD i 0)
          rw [named_succ_left, if_pos rfl, List.length_append] at hlen
          rw [hs] at htop
          rw [(List.append_eq_nil_iff.mp htop.symm).1] at hlen
          simp at hlen
          omega
      | cons b rest =>
          have hpop : pop s (o.slots.getD i 0) =
              .ok (Function.update s (o.slots.getD i 0) rest) := by rw [pop, hs]
          rw [hpop, ok_bind, ih]
          refine forall_congr' fun z => ?_
          rw [named_succ_left]
          by_cases hz : o.slots.getD i 0 = z
          · subst hz
            rw [Function.update_self, if_pos rfl, hs]
            constructor
            · rintro ⟨top, rfl, hlen⟩
              exact ⟨b :: top, rfl, by rw [List.length_cons, hlen, List.length_append]; simp [add_comm]⟩
            · rintro ⟨top, htop, hlen⟩
              cases top with
              | nil =>
                  rw [List.length_append] at hlen
                  simp at hlen
                  omega
              | cons b' top =>
                  rw [List.cons_append] at htop
                  cases htop
                  refine ⟨top, rfl, ?_⟩
                  rw [List.length_cons, List.length_append, List.length_singleton] at hlen
                  omega
          · rw [Function.update_of_ne (Ne.symm hz), if_neg hz]
            rfl

/-! ## What `letslot` does -/

variable {this sofar id : ℕ} {apply : Stacks → Except Fault Stacks}

/-- The slots from this one up are bound. -/
def boundFrom (o : Object) (sofar : ℕ) : ℕ := if sofar = 0 then 0 else o.slots.length - sofar

theorem boundFrom_le (o : Object) (sofar : ℕ) : boundFrom o sofar ≤ o.slots.length := by
  unfold boundFrom
  split_ifs <;> omega

theorem howmuch_eq (o : Object) (sofar : ℕ) :
    (if 0 < (sofar : ℤ) then (o.slots.length - (sofar : ℤ)).toNat else 0) = boundFrom o sofar := by
  unfold boundFrom
  split_ifs <;> omega

/-- The bindings of a symbol when the function is applied. -/
theorem entered_eq (this : ℕ) (o : Object) (sofar : ℕ) (s : Stacks) (z : ℕ) :
    entered this o sofar s z = (if z = this then [.value o.id] else []) ++
      (named o z (boundFrom o sofar) (o.slots.length - boundFrom o sofar)).map (.slot o.id) ++
        s z := by
  have hle := boundFrom_le o sofar
  have hsize : boundFrom o sofar + (o.slots.length - boundFrom o sofar) = o.slots.length := by
    omega
  have hstacked := stackSlots_eq o (boundFrom o sofar)
    (o.slots.length - boundFrom o sofar) s z
  rw [hsize] at hstacked
  unfold entered push
  simp only [howmuch_eq]
  by_cases hz : z = this
  · subst hz
    rw [Function.update_self, if_pos rfl, hstacked]
    rfl
  · rw [Function.update_of_ne hz, if_neg hz, hstacked]
    rfl

theorem entered_this (this : ℕ) (o : Object) (sofar : ℕ) (s : Stacks) :
    entered this o sofar s this = .value o.id ::
      stackSlots o (boundFrom o sofar) o.slots.length s this := by
  unfold entered push
  simp only [howmuch_eq]
  rw [Function.update_self]

/-- `letslot` takes away what it has bound. -/
theorem letslot_iff (happly : apply (entered this o sofar s) = .ok s') :
    letslot this apply o sofar s = .ok s ↔ Leaves this s (entered this o sofar s) s' := by
  have hle := boundFrom_le o sofar
  have hsize : boundFrom o sofar + (o.slots.length - boundFrom o sofar) = o.slots.length := by
    omega
  have hstacked := stackSlots_eq o (boundFrom o sofar)
    (o.slots.length - boundFrom o sofar) s
  rw [hsize] at hstacked
  unfold letslot
  simp only [howmuch_eq]
  have henter : push (stackSlots o (boundFrom o sofar) o.slots.length s) this (.value o.id) =
      entered this o sofar s := by
    unfold entered
    simp only [howmuch_eq]
  rw [henter, happly, ok_bind, unstackSlots_iff]
  unfold Leaves
  constructor
  · intro h z hz
    obtain ⟨top, htop, hlen⟩ := h z
    rw [Function.update_of_ne hz] at htop
    refine ⟨top, htop, ?_⟩
    rw [entered_eq, if_neg hz, List.nil_append, List.length_append, List.length_map, hlen]
  · intro h z
    by_cases hz : z = this
    · subst hz
      rw [Function.update_self, hstacked]
      exact ⟨_, rfl, List.length_map _⟩
    · obtain ⟨top, htop, hlen⟩ := h z hz
      rw [Function.update_of_ne hz]
      refine ⟨top, htop, ?_⟩
      rw [entered_eq, if_neg hz, List.nil_append, List.length_append, List.length_map] at hlen
      omega

/-! ## Methods of a class -/

theorem layout_slots (S : Slotted φ) (cs : List ℕ) :
    (cs.flatMap fun b => (S.keylist b).map fun z => (b, z)).map Prod.snd =
      cs.flatMap S.keylist := by
  rw [List.map_flatMap]
  exact List.flatMap_congr fun b _ => by rw [List.map_map]; exact List.map_id _

/-- The last slots are those of the class and its superclasses. -/
theorem Laid.visible_eq (h : Laid S) (hcl : cl < S.classes.count) (hc : c ∈ S.chain cl)
    (ho : o.slots = (S.chain cl).flatMap S.keylist) (z : ℕ) :
    S.visible cl c z =
      named o z (o.slots.length - S.classes.slotssofar c) (S.classes.slotssofar c) := by
  obtain ⟨subs, hsubs, hnot⟩ := h.chain_suffix hcl hc
  have hlen := h.length_slots (h.lt_of_mem_chain hcl hc)
  have hlayout : S.layout cl = (subs.flatMap fun b => (S.keylist b).map fun z => (b, z)) ++
      (S.chain c).flatMap fun b => (S.keylist b).map fun z => (b, z) := by
    rw [Slotted.layout, hsubs, List.flatMap_append]
  have hslots : o.slots = (S.layout cl).map Prod.snd := by rw [ho, Slotted.layout, layout_slots]
  have hlast : ((S.chain c).flatMap fun b => (S.keylist b).map fun z => (b, z)).length =
      S.classes.slotssofar c := by
    rw [← hlen, ← layout_slots, List.length_map]
  have hsize : o.slots.length = (S.layout cl).length := by rw [hslots, List.length_map]
  have hfirst : (subs.flatMap fun b => (S.keylist b).map fun z => (b, z)).length =
      o.slots.length - S.classes.slotssofar c := by
    rw [hsize, hlayout, List.length_append, hlast, Nat.add_sub_cancel]
  -- a slot before the last ones belongs to a subclass
  have hbefore : ∀ i < o.slots.length - S.classes.slotssofar c,
      ¬ ∃ b ∈ S.chain c, (S.layout cl)[i]? = some (b, z) := by
    rintro i hi ⟨b, hb, hget⟩
    rw [hlayout, List.getElem?_append_left (hfirst ▸ hi)] at hget
    obtain ⟨b', hb', hmem⟩ := List.mem_flatMap.mp (List.mem_of_getElem? hget)
    obtain ⟨z', -, heq⟩ := List.mem_map.mp hmem
    cases heq
    exact hnot b hb' hb
  have hafter : ∀ i, o.slots.length - S.classes.slotssofar c ≤ i → i < o.slots.length →
      ((∃ b ∈ S.chain c, (S.layout cl)[i]? = some (b, z)) ↔ o.slots.getD i 0 = z) := by
    intro i hi hlt
    obtain ⟨p, hp⟩ : ∃ p, (S.layout cl)[i]? = some p :=
      ⟨_, List.getElem?_eq_getElem (hsize ▸ hlt)⟩
    have hmem : p.1 ∈ S.chain c := by
      have hget := hp
      rw [hlayout, List.getElem?_append_right (hfirst ▸ hi)] at hget
      obtain ⟨b, hb, hmem⟩ := List.mem_flatMap.mp (List.mem_of_getElem? hget)
      obtain ⟨z', -, heq⟩ := List.mem_map.mp hmem
      exact heq ▸ hb
    have hgetD : o.slots.getD i 0 = p.2 := by
      rw [hslots, List.getD_eq_getElem?_getD, List.getElem?_map, hp]
      rfl
    rw [hgetD, hp]
    constructor
    · rintro ⟨b, -, heq⟩
      rw [Option.some.inj heq]
    · intro heq
      exact ⟨p.1, hmem, congrArg some (Prod.ext rfl heq)⟩
  have hle : S.classes.slotssofar c ≤ o.slots.length := by
    rw [hsize, hlayout, List.length_append, hlast]
    exact Nat.le_add_left _ _
  have hrange : List.range (S.layout cl).length =
      List.range (o.slots.length - S.classes.slotssofar c) ++
        List.range' (o.slots.length - S.classes.slotssofar c) (S.classes.slotssofar c) := by
    have happend := List.range'_append_1 (s := 0)
      (m := o.slots.length - S.classes.slotssofar c) (n := S.classes.slotssofar c)
    rw [Nat.zero_add, Nat.sub_add_cancel hle] at happend
    rw [← hsize, List.range_eq_range', List.range_eq_range', happend]
  unfold Slotted.visible named
  rw [hrange, List.filter_append, List.filter_eq_nil_iff.mpr, List.nil_append]
  · apply List.filter_congr
    intro i hi
    rw [List.mem_range'_1] at hi
    exact decide_eq_decide.mpr (hafter i hi.1 (by omega))
  · intro i hi
    simpa using hbefore i (List.mem_range.mp hi)

/-- A method sees the slots of its class, unless the class has none and a subclass has
some, and the bindings are restored if the function leaves those that it found. -/
theorem Laid.sees_iff (h : Laid S) (hcl : cl < S.classes.count) (hc : c ∈ S.chain cl)
    (ho : o.slots = (S.chain cl).flatMap S.keylist) :
    Sees S cl c this o (S.classes.slotssofar c) apply s ↔
      (S.classes.slotssofar c = 0 → S.classes.slotssofar cl = 0) ∧
        ∀ s', apply (entered this o (S.classes.slotssofar c) s) = .ok s' →
          Leaves this s (entered this o (S.classes.slotssofar c) s) s' := by
  have hsize : o.slots.length = S.classes.slotssofar cl := by rw [ho, h.length_slots hcl]
  have hvisible := h.visible_eq hcl hc ho
  have hbound : (∀ z, entered this o (S.classes.slotssofar c) s z =
      (if z = this then [.value o.id] else []) ++ (S.visible cl c z).map (.slot o.id) ++ s z) ↔
        (S.classes.slotssofar c = 0 → S.classes.slotssofar cl = 0) := by
    constructor
    · intro hall hzero
      by_contra hne
      -- the first slot is bound, and it is a slot of a subclass
      have hz := hall (o.slots.getD 0 0)
      rw [entered_eq, hvisible, hzero] at hz
      have hcancel := List.map_inj_right (fun i j hij => by cases hij; rfl) |>.mp
        (List.append_cancel_left (List.append_cancel_right hz))
      unfold boundFrom at hcancel
      rw [if_pos rfl, Nat.sub_zero, hsize] at hcancel
      obtain ⟨k, hk⟩ := Nat.exists_eq_succ_of_ne_zero hne
      rw [hk, named_succ_left, if_pos rfl] at hcancel
      cases hcancel
    · intro hzero z
      have hfrom : boundFrom o (S.classes.slotssofar c) =
          o.slots.length - S.classes.slotssofar c := by
        unfold boundFrom
        split_ifs with hno
        · rw [hsize, hzero hno, Nat.zero_sub]
        · rfl
      have hle : S.classes.slotssofar c ≤ o.slots.length := by
        obtain ⟨subs, hsubs, -⟩ := h.chain_suffix hcl hc
        rw [ho, hsubs, List.flatMap_append, List.length_append,
          h.length_slots (h.lt_of_mem_chain hcl hc)]
        exact Nat.le_add_left _ _
      rw [entered_eq, hvisible, hfrom, Nat.sub_sub_self hle]
  constructor
  · intro hsees
    exact ⟨hbound.mp hsees.bound, fun s' hs' => (letslot_iff hs').mp (hsees.restored s' hs')⟩
  · intro hfits
    exact ⟨hbound.mpr hfits.1, fun s' hs' => (letslot_iff hs').mpr (hfits.2 s' hs')⟩

/-! ## Calls -/

/-- A function that leaves the bindings as they are leaves those that it found. -/
theorem leaves_entered (this : ℕ) (o : Object) (sofar : ℕ) (s : Stacks) :
    Leaves this s (entered this o sofar s) (entered this o sofar s) := by
  intro z _
  refine ⟨_, entered_eq this o sofar s z, ?_⟩
  rw [entered_eq]
  exact List.length_append.symm

/-- A call restores the bindings if the evaluator and the function do. -/
theorem callMethod_restored {ev : Evaluator} {kind : Kind} (hkind : kind ≠ .other)
    (hargs : ∀ s s', ev.args s = .ok s' → s' = s) (happly : ∀ s s', ev.apply s = .ok s' → s' = s)
    (hexpansion : ∀ s s', ev.expansion s = .ok s' → s' = s)
    (h : callMethod this ev kind o sofar s = .ok s') : s' = s := by
  have hlet : ∀ s s', letslot this ev.apply o sofar s = .ok s' → s' = s := by
    intro s s' hrun
    cases hresult : ev.apply (entered this o sofar s) with
    | error fault =>
        have herror : letslot this ev.apply o sofar s = .error fault := by
          unfold letslot
          unfold entered at hresult
          simp only [hresult]
          rfl
        rw [herror] at hrun
        cases hrun
    | ok t =>
        have ht := happly _ _ hresult
        rw [ht] at hresult
        have hok := (letslot_iff hresult).mpr (leaves_entered this o sofar s)
        rw [hok] at hrun
        exact (Except.ok.inj hrun).symm
  cases kind with
  | de =>
      unfold callMethod at h
      cases hresult : ev.args s with
      | error fault =>
          rw [hresult] at h
          cases h
      | ok t =>
          rw [hresult, hargs s t hresult] at h
          exact hlet s s' h
  | df => exact hlet s s' h
  | dm =>
      unfold callMethod at h
      cases hresult : letslot this ev.apply o sofar s with
      | error fault =>
          rw [hresult] at h
          cases h
      | ok t =>
          rw [hresult, hlet s t hresult] at h
          exact hexpansion s s' h
  | other => exact absurd rfl hkind

variable [DecidableEq φ]

theorem classes_run (ds : List (Definition φ)) (S : Slotted φ) :
    (ds.foldl Slotted.after S).classes =
      (ds.map Definition.operation).foldl Classes.after S.classes := by
  induction ds generalizing S with
  | nil => rfl
  | cons d ds ih => exact ih (S.after d)

/-- **Methods see the slots of their class.**  After any sequence of definitions, a method
that is found along the superclasses of an object's class is one of some class `c` among
them.  It sees just the slots of `c` and its superclasses, if `c` has slots or the object
has none, and the bindings are restored, if the function leaves those that it found. -/
theorem methods_see_slots (ds : List (Definition φ)) {S : Slotted φ}
    (hS : S = ds.foldl Slotted.after (Slotted.init φ)) {cl c0 name sofar id : ℕ} {f : φ}
    {h : Heap φ} {o : Object} (hcl : cl < S.classes.count) (hc0 : c0 ∈ S.chain cl)
    (hfound : getmethod ((ds.map Definition.operation).foldl Heap.after (init φ)) c0 name =
      .ok (h, some (f, sofar)))
    (ho : newOostruct S cl id = .ok o) (this : ℕ) (apply : Stacks → Except Fault Stacks)
    (s : Stacks) :
    ∃ c ∈ S.chain cl, S.classes.live c name = some f ∧
      (Sees S cl c this o sofar apply s ↔
        (S.classes.slotssofar c = 0 → S.classes.slotssofar cl = 0) ∧
          ∀ s', apply (entered this o sofar s) = .ok s' →
            Leaves this s (entered this o sofar s) s') := by
  have hlaid : Laid S := hS ▸ laid_init.run ds
  have hclasses : S.classes = (ds.map Definition.operation).foldl Classes.after (Classes.init φ) := by
    rw [hS, classes_run]
    rfl
  have hr : Refines ((ds.map Definition.operation).foldl Heap.after (init φ)) S.classes :=
    hclasses ▸ refines_init.run _
  have hc0lt := hlaid.lt_of_mem_chain hcl hc0
  obtain ⟨h', hget, -⟩ := hr.getmethod (hr.count.symm ▸ hc0lt) name
  rw [hfound] at hget
  have hdispatch : S.classes.dispatch c0 name = some (f, sofar) :=
    (congrArg Prod.snd (Except.ok.inj hget)).symm
  obtain ⟨c, hc, hmap⟩ := List.exists_of_findSome?_eq_some hdispatch
  obtain ⟨f', hlive, heq⟩ := Option.map_eq_some_iff.mp hmap
  cases heq
  obtain ⟨subs, hsubs, -⟩ := hlaid.chain_suffix hcl hc0
  have hmem : c ∈ S.chain cl := by
    rw [hsubs]
    exact List.mem_append_right _ hc
  have hslots : o.slots = (S.chain cl).flatMap S.keylist := by
    unfold newOostruct at ho
    simp only at ho
    split_ifs at ho
    cases ho
    rfl
  exact ⟨c, hmem, hlive, hlaid.sees_iff hcl hmem hslots⟩

/-- `getmethod` after a sequence of definitions. -/
theorem exists_getmethod (ds : List (Definition φ)) {c : ℕ}
    (hc : c < (ds.foldl Slotted.after (Slotted.init φ)).classes.count) (name : ℕ) :
    ∃ h, getmethod ((ds.map Definition.operation).foldl Heap.after (init φ)) c name =
      .ok (h, (ds.foldl Slotted.after (Slotted.init φ)).classes.dispatch c name) := by
  have hr : Refines ((ds.map Definition.operation).foldl Heap.after (init φ))
      (ds.foldl Slotted.after (Slotted.init φ)).classes := by
    rw [classes_run]
    exact refines_init.run _
  obtain ⟨h, hget, -⟩ := hr.getmethod (hr.count.symm ▸ hc) name
  exact ⟨h, hget⟩

/-- A subclass has one slot more. -/
theorem methods_see_slots_subclass :
    ∃ h, getmethod (([.make 0 [7], .make 1 [8], .put 1 5 (some true)].map
        Definition.operation).foldl Heap.after (init Bool)) 2 5 = .ok (h, some (true, 1)) ∧
      ∃ c ∈ [2, 1, 0], ([.make 0 [7], .make 1 [8], .put 1 5 (some true)].foldl Slotted.after
          (Slotted.init Bool)).classes.live c 5 = some true ∧
        Sees ([.make 0 [7], .make 1 [8], .put 1 5 (some true)].foldl Slotted.after
          (Slotted.init Bool)) 2 c 4 ⟨3, [8, 7]⟩ 1 .ok fun _ => [] := by
  obtain ⟨h, hget⟩ := exists_getmethod (φ := Bool)
    [.make 0 [7], .make 1 [8], .put 1 5 (some true)] (c := 2) (by decide) 5
  refine ⟨h, hget, ?_⟩
  obtain ⟨c, hc, hlive, hsees⟩ := methods_see_slots [.make 0 [7], .make 1 [8], .put 1 5 (some true)]
    rfl (show 2 < _ by decide) (by decide) hget (o := ⟨3, [8, 7]⟩) rfl 4 .ok fun _ => []
  refine ⟨c, hc, hlive, hsees.mpr ⟨fun hzero => ?_, fun s' hs' => ?_⟩⟩
  · have hall : ∀ c ∈ [2, 1, 0], ([.make 0 [7], .make 1 [8], .put 1 5 (some true)].foldl
        Slotted.after (Slotted.init Bool)).classes.live c 5 = some true → c = 1 := by decide
    rw [hall c hc hlive] at hzero
    exact absurd hzero (by decide)
  · cases hs'
    exact leaves_entered 4 _ _ _

/-- The superclass has no slots, and its method sees that of the subclass. -/
theorem not_sees_empty :
    ∃ h, getmethod (([.make 0 [], .make 1 [9], .put 1 5 (some true)].map
        Definition.operation).foldl Heap.after (init Bool)) 2 5 = .ok (h, some (true, 0)) ∧
      newOostruct ([.make 0 [], .make 1 [9], .put 1 5 (some true)].foldl Slotted.after
        (Slotted.init Bool)) 2 3 = .ok ⟨3, [9]⟩ ∧
      ¬ Sees ([.make 0 [], .make 1 [9], .put 1 5 (some true)].foldl Slotted.after
        (Slotted.init Bool)) 2 1 4 ⟨3, [9]⟩ 0 .ok fun _ => [] := by
  obtain ⟨h, hget⟩ := exists_getmethod (φ := Bool)
    [.make 0 [], .make 1 [9], .put 1 5 (some true)] (c := 2) (by decide) 5
  refine ⟨h, hget, rfl, fun hsees => ?_⟩
  have hlaid : Laid ([.make 0 [], .make 1 [9], .put 1 5 (some true)].foldl Slotted.after
      (Slotted.init Bool)) := laid_init.run _
  have hzero := ((hlaid.sees_iff (by decide) (by decide) rfl).mp hsees).1 rfl
  exact absurd hzero (by decide)

end Lush.Oostruct
