import Lush.Basic
import Lush.Library.Chains

/-!
# The event queue

The queue is a list of cells behind a head cell, with a pointer `tail` to the last
cell.  `ev_add` puts a cell at the end, and all other operations take cells out of
the middle, through a pointer to the cell before.  Cells come from the free list
and go back to it.

The `Car` of a cell holds an entry: the handler, a description and the event.  An
object of another form is `none` here; the operations take its cell out when they
come across it.
-/

namespace Lush.Event

open Chains

variable {η δ ε : Type}

/-! ## Memory -/

/-- The entry `(handler . (d . event))` of the queue: `d` is made of a description and
of modifiers. -/
structure Entry (η δ ε : Type) where
  handler : η
  desc : Option δ
  mods : Option UInt8
  event : ε

/-- The memory of the queue: the cells, `head`, `tail`, the free list, the cells never
used, and the variables `evdesc` and `evmods`. -/
structure Queue (η δ ε : Type) where
  car : ℕ → Option (Entry η δ ε)
  cdr : ℕ → Option ℕ
  head : ℕ
  tail : ℕ
  free : List ℕ
  fresh : ℕ
  evdesc : Option δ
  evmods : UInt8

/-- `init_event`: the head cell is there. -/
def init (η δ ε : Type) : Queue η δ ε :=
  ⟨fun _ => none, fun _ => none, 0, 0, [], 1, none, 0⟩

/-- `cons(p, NIL)`. -/
def cons (q : Queue η δ ε) (e : Entry η δ ε) : ℕ × Queue η δ ε :=
  match q.free with
  | c :: free =>
      (c, { q with
        car := Function.update q.car c (some e)
        cdr := Function.update q.cdr c none
        free := free })
  | [] =>
      (q.fresh, { q with
        car := Function.update q.car q.fresh (some e)
        cdr := Function.update q.cdr q.fresh none
        fresh := q.fresh + 1 })

/-- `ev_hndl`, on the `Car` of a cell. -/
def evHndl (q : Queue η δ ε) (p : ℕ) : Option η := (q.car p).map (·.handler)

/-! ## Operations -/

/-- `ev_remove`: the cell `p` behind `pp` is taken out and released.  Its `Cdr` stays
`NIL` on the free list, which is linked through the `Car`. -/
def evRemove (q : Queue η δ ε) (pp p : ℕ) : Except Fault (Queue η δ ε) :=
  if q.cdr pp ≠ some p then .error (.error "Internal error")
  else .ok { q with
    cdr := Function.update (Function.update q.cdr pp (q.cdr p)) p none
    tail := if q.tail = p then pp else q.tail
    free := p :: q.free }

/-- What a round of the loop of `ev_finalize` does. -/
inductive Round (η δ ε : Type)
  /-- There is no next cell. -/
  | finished
  /-- The next cell is taken out. -/
  | removed (q : Queue η δ ε)
  /-- The loop goes on behind the next cell. -/
  | passed (p : ℕ)

/-- One round of the loop of `ev_finalize`, behind the cell `pp`. -/
def finalizeRound [DecidableEq η] (handler : η) (q : Queue η δ ε) (pp : ℕ) :
    Except Fault (Round η δ ε) :=
  match q.cdr pp with
  | none => .ok .finished
  | some p =>
      if evHndl q p = none ∨ evHndl q p = some handler then do
        let q ← evRemove q pp p
        .ok (.removed q)
      else .ok (.passed p)

/-- The loop of `ev_finalize`, when nothing else happens in between. -/
def finalizeLoop [DecidableEq η] (handler : η) :
    ℕ → ℕ → Queue η δ ε → Except Fault (Queue η δ ε)
  | 0, _, _ => .error .depth
  | rounds + 1, pp, q => do
      match ← finalizeRound handler q pp with
      | .finished => .ok q
      | .removed q => finalizeLoop handler rounds pp q
      | .passed p => finalizeLoop handler rounds p q

/-- `ev_finalize`.  There are not more rounds than cells. -/
def evFinalize [DecidableEq η] (q : Queue η δ ε) (handler : η) : Except Fault (Queue η δ ε) :=
  finalizeLoop handler (q.fresh + 1) q.head q

/-- `ev_add`.  The modifiers are kept when they are those of an `unsigned char`. -/
def evAdd (q : Queue η δ ε) (handler : Option η) (event : Option ε) (desc : Option δ)
    (mods : ℤ) : Queue η δ ε :=
  match handler, event with
  | some handler, some event =>
      let mods := if 0 ≤ mods ∧ mods < 256 then some (UInt8.ofNat mods.toNat) else none
      let (c, q) := cons q ⟨handler, desc, mods, event⟩
      { q with cdr := Function.update q.cdr q.tail (some c), tail := c }
  | _, _ => q

/-- The loop of `ev_peek`: `pp` stays at the head. -/
def peekLoop : ℕ → Queue η δ ε → Except Fault (Queue η δ ε × Option η)
  | 0, _ => .error .depth
  | rounds + 1, q =>
      match q.cdr q.head with
      | none => .ok (q, none)
      | some p =>
          match evHndl q p with
          | some handler => .ok (q, some handler)
          | none => do
              let q ← evRemove q q.head p
              peekLoop rounds q

/-- `ev_peek`. -/
def evPeek (q : Queue η δ ε) : Except Fault (Queue η δ ε × Option η) :=
  peekLoop (q.fresh + 1) q

/-- `ev_parsedesc`: the variables that have no part in the description keep their
values. -/
def evParsedesc (q : Queue η δ ε) (e : Entry η δ ε) : Queue η δ ε :=
  { q with evdesc := e.desc.or q.evdesc, evmods := e.mods.getD q.evmods }

/-- The loop of `event_get`, behind the cell `pp`. -/
def getLoop [DecidableEq η] (handler : η) (remove : Bool) :
    ℕ → ℕ → Queue η δ ε → Except Fault (Queue η δ ε × Option ε)
  | 0, _, _ => .error .depth
  | rounds + 1, pp, q =>
      match q.cdr pp with
      | none => .ok (q, none)
      | some p =>
          match q.car p with
          | none => do
              let q ← evRemove q pp p
              getLoop handler remove rounds pp q
          | some e =>
              if e.handler = handler then do
                let q := evParsedesc q e
                let q ← (if remove then evRemove q pp p else .ok q)
                .ok (q, some e.event)
              else getLoop handler remove rounds p q

/-- `event_get`. -/
def eventGet [DecidableEq η] (q : Queue η δ ε) (handler : η) (remove : Bool) :
    Except Fault (Queue η δ ε × Option ε) :=
  getLoop handler remove (q.fresh + 1) q.head q

end Lush.Event
