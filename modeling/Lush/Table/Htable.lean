import Lush.Library.Buckets
import Lush.Table.Hash

/-!
# Hash tables

The tables made with `pointerhashp = 0`: keys are compared with `eq_test` and
hashed with `hash_value`.  An entry keeps its hash value; `htable-rehash` only
asks for the hash values to be computed again at the next access.
-/

namespace Lush.Table

open Buckets

variable {ν : Type}

/-- `struct hashelt`. -/
structure Hashelt (ν : Type) where
  hash : BitVec 64
  key : Option ν
  value : Option ν

/-- `struct hashtable`, where `pointerhashp` is zero, and `keylockp` is one. -/
structure Htable (ν : Type) where
  size : ℕ
  nelems : ℕ
  rehashp : Bool
  table : ℕ → List (Hashelt ν)

/-- The entries, in the order in which the loops of the program meet them. -/
def Htable.elts (t : Htable ν) : List (Hashelt ν) :=
  entries t.size t.table

/-- `new_htable`. -/
def newHtable (nelems : ℤ) : Htable ν where
  size := if nelems < 16 then 31 else (nelems * 2 - 1).toNat
  nelems := 0
  rehashp := false
  table _ := []

/-- The bucket of an entry. -/
def slot (size : ℕ) (n : Hashelt ν) : ℕ :=
  n.hash.toNat % size

/-- `htable_resize`. -/
def resize (t : Htable ν) (newsize : ℕ) : Htable ν :=
  { t with size := newsize, table := distribute (slot newsize) t.elts }

/-- The loop of `htable_set` around `htable_resize`. -/
def grow : ℕ → Htable ν → Except Fault (Htable ν)
  | 0, _ => .error .depth
  | fuel + 1, t =>
      if 2 * t.size < 3 * t.nelems then
        grow fuel (resize t (2 * t.size - 1))
      else
        .ok t

section Access

variable [DecidableEq ν] (heap : ν → Object (Option ν))

/-- The test of `X_ZOMBIE`. -/
def isZombie : Option ν → Bool
  | none => false
  | some a => heap a = .zombie

variable [Fintype ν]

/-- One entry gets its hash value again. -/
def rehashElt (n : Hashelt ν) : Except Fault (Hashelt ν) := do
  let hash ← hashValue heap n.key
  .ok { n with hash }

/-- `htable_rehash`.  Both loops go through the buckets in the same order. -/
def htableRehash (t : Htable ν) : Except Fault (Htable ν) := do
  let kept := t.elts.filter fun n => !(isZombie heap n.key || isZombie heap n.value)
  let elts ← kept.mapM (rehashElt heap)
  .ok { size := t.size, nelems := t.nelems - (t.elts.length - kept.length), rehashp := false,
        table := distribute (slot t.size) elts }

/-- The test of `rehashp` at the start of an access. -/
def checkRehash (t : Htable ν) : Except Fault (Htable ν) :=
  if t.rehashp then htableRehash heap t else .ok t

/-- The search in a bucket: the entries before `*np`, and those from there on. -/
def search (key : Option ν) (hash : BitVec 64) :
    List (Hashelt ν) → Except Fault (List (Hashelt ν) × List (Hashelt ν))
  | [] => .ok ([], [])
  | n :: bucket => do
      let found ← (if key = n.key then .ok true
        else if hash = n.hash then eqTest heap key n.key
        else .ok false)
      if found then
        .ok ([], n :: bucket)
      else
        let (before, rest) ← search key hash bucket
        .ok (n :: before, rest)

/-- `htable_set`. -/
def htableSet (t : Htable ν) (key value : Option ν) : Except Fault (Htable ν) := do
  let value := alive heap value
  if isZombie heap key then
    .ok t
  else
    let t ← checkRehash heap t
    let hash ← hashValue heap key
    let i := hash.toNat % t.size
    let (before, rest) ← search heap key hash (t.table i)
    match value, rest with
    | some v, n :: after =>
        .ok { t with table := Function.update t.table i (before ++ { n with value := some v } :: after) }
    | some v, [] => do
        let t ← grow (3 * t.nelems + 1) t
        .ok { t with nelems := t.nelems + 1, table := push (slot t.size) t.table ⟨hash, key, some v⟩ }
    | none, _ :: after =>
        .ok { t with nelems := t.nelems - 1, table := Function.update t.table i (before ++ after) }
    | none, [] => .ok t

/-- `htable_get`: the value, and the table, which may have been rehashed. -/
def htableGet (t : Htable ν) (key : Option ν) : Except Fault (Option ν × Htable ν) := do
  let t ← checkRehash heap t
  let hash ← hashValue heap key
  let (_, rest) ← search heap key hash (t.table (hash.toNat % t.size))
  match rest with
  | n :: _ => .ok (n.value, t)
  | [] => .ok (none, t)

end Access

/-! ## Runs -/

/-- The calls on a table; `htable-rehash` only sets `rehashp`. -/
inductive Action (ν : Type)
  | set (key value : Option ν)
  | get (key : Option ν)
  | rehash

/-- One call. -/
def step [DecidableEq ν] [Fintype ν] (heap : ν → Object (Option ν)) (t : Htable ν) :
    Action ν → Option (Htable ν)
  | .set key value => (htableSet heap t key value).toOption
  | .get key => (htableGet heap t key).toOption.map Prod.snd
  | .rehash => some { t with rehashp := true }

end Lush.Table
