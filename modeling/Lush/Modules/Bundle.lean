import Lush.Basic
import Lush.Library.Resolution

/-!
# Bundles of object files

An object file that is loaded becomes a bundle, with the symbols it defines and the
symbols it refers to.  The symbol table says which bundle a symbol belongs to.
`nsbundle_exec` finds out whether a bundle can be executed, by a recursion over the
bundles it refers to, and `nsbundle_exec_all_but` repeats this until nothing changes.

`system`, `dlopen` and `dlclose` succeed, so `nsbundle_update` always returns 0 and
is left out with the handles it manages.
-/

namespace Lush.Modules

open Resolution

variable {ν σ : Type} [DecidableEq ν] [DecidableEq σ]

/-- The chain of the bundles, their symbols, and `nsbundle_symtable`. -/
structure Bundles (ν σ : Type) where
  chain : List ν
  symdef : ν → List σ
  symref : ν → List σ
  symtable : σ → Option ν

/-- `nsbundle_error`. -/
inductive Message (σ : Type)
  /-- `duplicate definition of symbol '%s'` -/
  | duplicate (sname : σ)
  /-- `Dlopen-based loader cannot handle circular dependencies in object files.` -/
  | circular

/-- What the search for executable bundles writes. -/
structure Marks (ν σ : Type) where
  executable : ν → ℤ
  recurse : ν → Bool
  error : Option (Message σ)

/-! ## Symbols -/

/-- The loop of `nsbundle_symmark`, over the symbols from the last one on, with the
symbol that is defined twice. -/
def symmarkLoop (bundle : ν) (mark : Option ν) :
    List σ → (σ → Option ν) → (σ → Option ν) × Option σ
  | [], symtable => (symtable, none)
  | sname :: snames, symtable =>
      if symtable sname ≠ none ∧ mark ≠ none ∧ symtable sname ≠ mark then (symtable, some sname)
      else if symtable sname = none ∨ symtable sname = some bundle then
        symmarkLoop bundle mark snames (Function.update symtable sname mark)
      else
        symmarkLoop bundle mark snames symtable

/-- `nsbundle_symmark`. -/
def symmark (B : Bundles ν σ) (bundle : ν) (mark : Option ν) : Bundles ν σ × Option σ :=
  let r := symmarkLoop bundle mark (B.symdef bundle).reverse B.symtable
  ({ B with symtable := r.1 }, r.2)

/-! ## Executable bundles -/

/-- `bundle->executable` is changed. -/
def Marks.setExecutable (m : Marks ν σ) (b : ν) (e : ℤ) : Marks ν σ :=
  { m with executable := Function.update m.executable b e }

/-- `bundle->recurse` is changed. -/
def Marks.setRecurse (m : Marks ν σ) (b : ν) (r : Bool) : Marks ν σ :=
  { m with recurse := Function.update m.recurse b r }

/-- What a bundle learns from one that it refers to. -/
def raise (bundle c : ν) (m : Marks ν σ) : Marks ν σ :=
  if m.executable c < 0 then m.setExecutable bundle (m.executable c)
  else if m.executable bundle ≤ m.executable c then m.setExecutable bundle (1 + m.executable c)
  else m

/-- One round of the loop of `nsbundle_exec`, with `savedexecutable`. -/
def execRef (isdef : σ → Bool) (symtable : σ → Option ν)
    (exec : ν → Marks ν σ → Except Fault (Bool × Marks ν σ)) (bundle : ν) (sname : σ) (saved : ℤ)
    (m : Marks ν σ) : Except Fault (ℤ × Marks ν σ) :=
  match symtable sname with
  | some c =>
      if c = bundle then .ok (saved, m)
      else do
        let (changed, m) ← exec c m
        return (if changed then -2 else saved, raise bundle c m)
  | none => .ok (saved, if isdef sname then m else m.setExecutable bundle (-1))

/-- The loop of `nsbundle_exec`, over the symbols from the last one on. -/
def execLoop (isdef : σ → Bool) (symtable : σ → Option ν)
    (exec : ν → Marks ν σ → Except Fault (Bool × Marks ν σ)) (bundle : ν) :
    List σ → ℤ → Marks ν σ → Except Fault (ℤ × Marks ν σ)
  | [], saved, m => .ok (saved, m)
  | sname :: snames, saved, m => do
      let (saved, m) ← execRef isdef symtable exec bundle sname saved m
      if m.executable bundle < 0 then return (saved, m)
      else execLoop isdef symtable exec bundle snames saved m

/-- `nsbundle_exec`; it says whether something has changed. -/
def nsbundleExec (isdef : σ → Bool) (B : Bundles ν σ) :
    ℕ → ν → Marks ν σ → Except Fault (Bool × Marks ν σ)
  | 0, _, _ => .error .depth
  | depth + 1, bundle, m =>
      if m.recurse bundle then
        .ok (decide ((-1 : ℤ) ≠ m.executable bundle),
          { m.setExecutable bundle (-1) with error := some .circular })
      else if 0 ≤ m.executable bundle then do
        let (saved, m) ← execLoop isdef B.symtable (nsbundleExec isdef B depth) bundle
          (B.symref bundle).reverse (m.executable bundle) (m.setRecurse bundle true)
        let m := m.setRecurse bundle false
        return (decide (m.executable bundle ≠ saved), m)
      else
        .ok (false, m)

/-- The state in which the search begins. -/
def clearMarks (B : Bundles ν σ) (but : Option ν) (m : Marks ν σ) : Marks ν σ where
  executable b := if b ∈ B.chain then (if some b = but then -1 else 0) else m.executable b
  recurse b := if b ∈ B.chain then false else m.recurse b
  error := none

/-- One round of `nsbundle_exec_all_but` over the bundles. -/
def execRound (isdef : σ → Bool) (B : Bundles ν σ) (depth : ℕ) :
    List ν → Marks ν σ → Except Fault (Bool × Marks ν σ)
  | [], m => .ok (false, m)
  | bundle :: bundles, m => do
      let (changed, m) ← nsbundleExec isdef B depth bundle m
      let (again, m) ← execRound isdef B depth bundles m
      return (changed || again, m)

/-- The loop of `nsbundle_exec_all_but`. -/
def execRounds (isdef : σ → Bool) (B : Bundles ν σ) (depth : ℕ) :
    ℕ → Marks ν σ → Except Fault (Marks ν σ)
  | 0, _ => .error .depth
  | rounds + 1, m => do
      let (again, m) ← execRound isdef B depth B.chain m
      if again then execRounds isdef B depth rounds m else return m

/-- The recursion cannot get deeper than this. -/
def depthOf (B : Bundles ν σ) : ℕ := B.chain.length + 2

/-- The second round changes nothing. -/
def maxRounds : ℕ := 2

/-- `nsbundle_exec_all_but`; it has failed if there is an error. -/
def execAllBut (isdef : σ → Bool) (B : Bundles ν σ) (but : Option ν) (m : Marks ν σ) :
    Except Fault (Marks ν σ) :=
  execRounds isdef B (depthOf B) maxRounds (clearMarks B but m)

/-! ## Loading and unloading -/

/-- The state of the loader. -/
structure State (ν σ : Type) where
  bundles : Bundles ν σ
  marks : Marks ν σ

/-- An object file, as its symbols. -/
structure ObjectFile (σ : Type) where
  symdef : List σ
  symref : List σ

/-- A new bundle at the head of the chain. -/
def Bundles.insert (B : Bundles ν σ) (bundle : ν) (file : ObjectFile σ) : Bundles ν σ where
  chain := bundle :: B.chain
  symdef := Function.update B.symdef bundle file.symdef
  symref := Function.update B.symref bundle file.symref
  symtable := B.symtable

/-- A bundle is taken out of the chain, and forgotten. -/
def Bundles.remove (B : Bundles ν σ) (bundle : ν) : Bundles ν σ where
  chain := B.chain.erase bundle
  symdef := Function.update B.symdef bundle []
  symref := Function.update B.symref bundle []
  symtable := B.symtable

/-- The marks of a bundle that is overwritten with zeros. -/
def Marks.forget (m : Marks ν σ) (bundle : ν) : Marks ν σ :=
  (m.setExecutable bundle 0).setRecurse bundle false

/-- What follows where `nsbundle_load` fails. -/
def failLoad (B : Bundles ν σ) (bundle : ν) (m : Marks ν σ) : State ν σ where
  bundles := (symmark B bundle none).1.remove bundle
  marks := m.forget bundle

/-- `nsbundle_load`; it says whether the file is loaded. -/
def nsbundleLoad (isdef : σ → Bool) (bundle : ν) (file : ObjectFile σ) (s : State ν σ) :
    Except Fault (Bool × State ν σ) :=
  let B := s.bundles.insert bundle file
  let m := s.marks.forget bundle
  let marked := symmark B bundle (some bundle)
  match marked.2 with
  | some sname => .ok (false, failLoad marked.1 bundle { m with error := some (.duplicate sname) })
  | none => do
      let m ← execAllBut isdef marked.1 none m
      if m.error.isSome then return (false, failLoad marked.1 bundle m)
      else return (true, ⟨marked.1, m⟩)

/-- `nsbundle_unload`; it says whether the bundle is unloaded. -/
def nsbundleUnload (isdef : σ → Bool) (bundle : ν) (s : State ν σ) :
    Except Fault (Bool × State ν σ) := do
  let m ← execAllBut isdef s.bundles (some bundle) s.marks
  if m.error.isSome then return (false, ⟨s.bundles, m⟩)
  else return (true, ⟨(symmark s.bundles bundle none).1.remove bundle, m.forget bundle⟩)

/-- What can be done with object files. -/
inductive Op (ν σ : Type)
  | load (bundle : ν) (file : ObjectFile σ)
  | unload (bundle : ν)

/-- One operation; it says whether it has succeeded. -/
def step (isdef : σ → Bool) : Op ν σ → State ν σ → Except Fault (Bool × State ν σ)
  | .load bundle file, s => nsbundleLoad isdef bundle file s
  | .unload bundle, s => nsbundleUnload isdef bundle s

/-- A file is loaded into a new bundle, and what is unloaded has been loaded. -/
def Op.Allowed (s : State ν σ) : Op ν σ → Prop
  | .load bundle _ => bundle ∉ s.bundles.chain
  | .unload bundle => bundle ∈ s.bundles.chain

instance (op : Op ν σ) (s : State ν σ) : Decidable (op.Allowed s) :=
  match op with
  | .load bundle _ => inferInstanceAs (Decidable (bundle ∉ s.bundles.chain))
  | .unload bundle => inferInstanceAs (Decidable (bundle ∈ s.bundles.chain))

/-- `nsbundle_init`. -/
def start : State ν σ where
  bundles := { chain := [], symdef := fun _ => [], symref := fun _ => [], symtable := fun _ => none }
  marks := { executable := fun _ => 0, recurse := fun _ => false, error := none }

/-- One operation of a history. -/
structure Event (ν σ : Type) where
  before : State ν σ
  op : Op ν σ
  done : Bool
  after : State ν σ

/-- A sequence of operations, the last one first, and the state that it leads to. -/
inductive History (isdef : σ → Bool) : List (Event ν σ) → State ν σ → Prop
  | start : History isdef [] start
  | step {events : List (Event ν σ)} {s s' : State ν σ} {op : Op ν σ} {done : Bool}
      (h : History isdef events s) (hallowed : op.Allowed s)
      (hstep : step isdef op s = .ok (done, s')) : History isdef (⟨s, op, done, s'⟩ :: events) s'

end Lush.Modules
