import Lush.Table.FiniteMap

/-!
# Comparing hash tables

There are two kinds of tables.  In a table made with `pointerhashp = 0` a key is found
by its hash value and `eq_test`; in one made with `pointerhashp = 1` it is found by its
address alone, so that such a table may hold several equal keys.  `SameKey` is what
counts as one key for a table of either kind.

No two keys of a table are the same, and an entry is in the bucket of its hash value
(`WellFormed`).  All calls keep this, and so `htable_get` finds the entry with the
same key whenever there is one (`WellFormed.get`).  `htable_compare` looks every entry
of one table up in the other.  Since the numbers of entries are equal and no key
comes twice, each entry of the second table is found by one of the first
(`Matches.symm`), so for tables of one kind the comparison is symmetric.
-/

namespace Lush.Table

open Buckets Runs

variable {ν : Type}

/-! ## The code -/

/-- `struct hashtable`. -/
structure Hashtable (ν : Type) extends Htable ν where
  pointerhashp : Bool

/-- `new_htable`. -/
def newHashtable (nelems : ℤ) (pointerhashp : Bool) : Hashtable ν :=
  ⟨newHtable nelems, pointerhashp⟩

/-- `hash_pointer`. -/
def hashPointer (address : ν → BitVec 64) (p : Option ν) : BitVec 64 :=
  let x := p.elim 0 address
  let x := x ^^^ x >>> 32
  x ^^^ x >>> 16

section Access

variable [DecidableEq ν] [Fintype ν] (heap : ν → Object (Option ν)) (address : ν → BitVec 64)

/-- The hash value of a key. -/
def keyHash (pointerhashp : Bool) (key : Option ν) : Except Fault (BitVec 64) :=
  if pointerhashp then .ok (hashPointer address key) else hashValue heap key

/-- One entry gets its hash value again. -/
def rehashEntry (pointerhashp : Bool) (n : Hashelt ν) : Except Fault (Hashelt ν) := do
  let hash ← keyHash heap address pointerhashp n.key
  .ok { n with hash }

/-- `htable_rehash`. -/
def rehash (t : Hashtable ν) : Except Fault (Hashtable ν) := do
  let kept := t.elts.filter fun n => !(isZombie heap n.key || isZombie heap n.value)
  let elts ← kept.mapM (rehashEntry heap address t.pointerhashp)
  .ok { t with
    nelems := t.nelems - (t.elts.length - kept.length)
    rehashp := false
    table := distribute (slot t.size) elts }

/-- The test of `rehashp` at the start of an access. -/
def rehashed (t : Hashtable ν) : Except Fault (Hashtable ν) :=
  if t.rehashp then rehash heap address t else .ok t

/-- The search in a bucket: the entries before `*np`, and those from there on. -/
def searchBucket (pointerhashp : Bool) (key : Option ν) (hash : BitVec 64) :
    List (Hashelt ν) → Except Fault (List (Hashelt ν) × List (Hashelt ν))
  | [] => .ok ([], [])
  | n :: bucket => do
      let found ← (if key = n.key then .ok true
        else if !pointerhashp && decide (hash = n.hash) then eqTest heap key n.key
        else .ok false)
      if found then
        .ok ([], n :: bucket)
      else
        let (before, rest) ← searchBucket pointerhashp key hash bucket
        .ok (n :: before, rest)

/-- `htable_set`, on a table of either kind. -/
def setKey (t : Hashtable ν) (key value : Option ν) : Except Fault (Hashtable ν) := do
  let value := alive heap value
  if isZombie heap key then
    .ok t
  else
    let t ← rehashed heap address t
    let hash ← keyHash heap address t.pointerhashp key
    let i := hash.toNat % t.size
    let (before, rest) ← searchBucket heap t.pointerhashp key hash (t.table i)
    match value, rest with
    | some v, n :: after =>
        .ok { t with table := Function.update t.table i (before ++ { n with value := some v } :: after) }
    | some v, [] => do
        let grown ← grow (3 * t.nelems + 1) t.toHtable
        .ok { t with
          size := grown.size
          nelems := t.nelems + 1
          table := push (slot grown.size) grown.table ⟨hash, key, some v⟩ }
    | none, _ :: after =>
        .ok { t with nelems := t.nelems - 1, table := Function.update t.table i (before ++ after) }
    | none, [] => .ok t

/-- `htable_get`: the value, and the table, which may have been rehashed. -/
def getKey (t : Hashtable ν) (key : Option ν) : Except Fault (Option ν × Hashtable ν) := do
  let t ← rehashed heap address t
  let hash ← keyHash heap address t.pointerhashp key
  let (_, rest) ← searchBucket heap t.pointerhashp key hash (t.table (hash.toNat % t.size))
  match rest with
  | n :: _ => .ok (n.value, t)
  | [] => .ok (none, t)

/-- The loop of `htable_compare` over the entries of the first table. -/
def compareLoop : List (Hashelt ν) → Hashtable ν → Except Fault (ℤ × Hashtable ν)
  | [], q => .ok (0, q)
  | n :: es, q => do
      let (val, q) ← getKey heap address q n.key
      match val with
      | none => .ok (1, q)
      | some val => do
          let c ← eqTest heap (some val) n.value
          if c then compareLoop es q else .ok (1, q)

/-- `htable_compare`; `order` is 0 when it is called from `eq_test`.  The second table may
have been rehashed. -/
def htableCompare (p q : Hashtable ν) (order : ℤ) : Except Fault (ℤ × Hashtable ν) :=
  if order ≠ 0 then .error (.error "Cannot rank hashtables")
  else if p.nelems ≠ q.nelems then .ok (1, q)
  else compareLoop heap address p.elts q

/-- One call on a table of either kind. -/
def stepKey (t : Hashtable ν) : Action ν → Option (Hashtable ν)
  | .set key value => (setKey heap address t key value).toOption
  | .get key => (getKey heap address t key).toOption.map Prod.snd
  | .rehash => some { t with rehashp := true }

end Access

/-! ## Keys -/

section Keys

variable [DecidableEq ν] [Fintype ν] {heap : ν → Object (Option ν)} {address : ν → BitVec 64}
  {pointerhashp : Bool} {k k' k'' : Option ν}

/-- What counts as one key for a table of this kind. -/
def SameKey (heap : ν → Object (Option ν)) (pointerhashp : Bool) (k k' : Option ν) : Prop :=
  if pointerhashp then k = k' else Agree heap k k' ∧ hashValue heap k = hashValue heap k'

@[simp] theorem sameKey_pointer : SameKey heap true k k' ↔ k = k' := Iff.rfl

@[simp] theorem sameKey_value :
    SameKey heap false k k' ↔ Agree heap k k' ∧ hashValue heap k = hashValue heap k' := Iff.rfl

theorem sameKey_equivalence (heap : ν → Object (Option ν)) (pointerhashp : Bool) :
    Equivalence (SameKey heap pointerhashp) := by
  cases pointerhashp with
  | true => exact ⟨Eq.refl, Eq.symm, Eq.trans⟩
  | false =>
      exact ⟨fun _ => ⟨AgreeAt.refl, rfl⟩, fun h => ⟨h.1.symm, h.2.symm⟩,
        fun h h' => ⟨h.1.trans h'.1, h.2.trans h'.2⟩⟩

theorem SameKey.symm (h : SameKey heap pointerhashp k k') : SameKey heap pointerhashp k' k :=
  (sameKey_equivalence heap pointerhashp).symm h

theorem SameKey.trans (h : SameKey heap pointerhashp k k')
    (h' : SameKey heap pointerhashp k' k'') : SameKey heap pointerhashp k k'' :=
  (sameKey_equivalence heap pointerhashp).trans h h'

theorem SameKey.hash_eq (h : SameKey heap pointerhashp k k') (address : ν → BitVec 64) :
    keyHash heap address pointerhashp k = keyHash heap address pointerhashp k' := by
  cases pointerhashp with
  | true => rw [sameKey_pointer.mp h]
  | false => exact (sameKey_value.mp h).2

theorem IsKey.keyHash_ok (h : IsKey heap k) (address : ν → BitVec 64) (pointerhashp : Bool) :
    ∃ hash, keyHash heap address pointerhashp k = .ok hash := by
  obtain ⟨t, ht⟩ := h
  unfold keyHash
  split
  exacts [⟨_, rfl⟩, ⟨_, hashValue_ok ht⟩]

end Keys

/-! ## The invariant -/

section WellFormed

variable [DecidableEq ν] [Fintype ν] {heap : ν → Object (Option ν)} {address : ν → BitVec 64}
  {pointerhashp : Bool} {es es' : List (Hashelt ν)} {n : Hashelt ν} {t : Hashtable ν}
  {key value : Option ν}

/-- The entries of a table, in any order: no two of them have the same key. -/
structure Stored (heap : ν → Object (Option ν)) (address : ν → BitVec 64) (pointerhashp : Bool)
    (es : List (Hashelt ν)) : Prop where
  keys : ∀ n ∈ es, IsKey heap n.key
  hashed : ∀ n ∈ es, keyHash heap address pointerhashp n.key = .ok n.hash
  values : ∀ n ∈ es, n.value ≠ none ∧ alive heap n.value = n.value ∧ Acyclic heap n.value
  distinct : es.Pairwise fun n n' => ¬SameKey heap pointerhashp n.key n'.key

/-- **The invariant** of a table. -/
structure WellFormed (heap : ν → Object (Option ν)) (address : ν → BitVec 64) (t : Hashtable ν) :
    Prop where
  two_le : 2 ≤ t.size
  placed : Placed (slot t.size) t.size t.table
  count : t.nelems = t.elts.length
  stored : Stored heap address t.pointerhashp t.elts

/-- Another table with the same entries. -/
structure Reordered (heap : ν → Object (Option ν)) (address : ν → BitVec 64) (t t' : Hashtable ν) :
    Prop where
  wellFormed : WellFormed heap address t'
  elts : t'.elts.Perm t.elts
  kind : t'.pointerhashp = t.pointerhashp

theorem Stored.perm (h : Stored heap address pointerhashp es) (hperm : es.Perm es') :
    Stored heap address pointerhashp es' where
  keys n hn := h.keys n (hperm.mem_iff.mpr hn)
  hashed n hn := h.hashed n (hperm.mem_iff.mpr hn)
  values n hn := h.values n (hperm.mem_iff.mpr hn)
  distinct := (hperm.pairwise_iff fun hne heq => hne heq.symm).mp h.distinct

theorem Stored.tail (h : Stored heap address pointerhashp (n :: es)) :
    Stored heap address pointerhashp es where
  keys n' hn' := h.keys n' (List.mem_cons_of_mem n hn')
  hashed n' hn' := h.hashed n' (List.mem_cons_of_mem n hn')
  values n' hn' := h.values n' (List.mem_cons_of_mem n hn')
  distinct := (List.pairwise_cons.mp h.distinct).2

/-- An entry with a key of its own is added. -/
theorem Stored.add (h : Stored heap address pointerhashp es) (hkey : IsKey heap n.key)
    (hhash : keyHash heap address pointerhashp n.key = .ok n.hash)
    (hvalue : n.value ≠ none ∧ alive heap n.value = n.value ∧ Acyclic heap n.value)
    (hnone : ∀ n' ∈ es, ¬SameKey heap pointerhashp n.key n'.key) :
    Stored heap address pointerhashp (n :: es) where
  keys := List.forall_mem_cons.mpr ⟨hkey, h.keys⟩
  hashed := List.forall_mem_cons.mpr ⟨hhash, h.hashed⟩
  values := List.forall_mem_cons.mpr ⟨hvalue, h.values⟩
  distinct := List.pairwise_cons.mpr ⟨hnone, h.distinct⟩

/-- **A rehash moves the entries only.** -/
theorem WellFormed.rehashed (h : WellFormed heap address t) :
    ∃ t', rehashed heap address t = .ok t' ∧ Reordered heap address t t' := by
  by_cases hrehash : t.rehashp = true
  · have hkept : (t.elts.filter fun n => !(isZombie heap n.key || isZombie heap n.value)) = t.elts := by
      refine List.filter_eq_self.mpr fun n hn => ?_
      rw [isZombie_eq_false (h.stored.keys n hn).alive,
        isZombie_eq_false (h.stored.values n hn).2.1]
      rfl
    have helts : t.elts.mapM (rehashEntry heap address t.pointerhashp) = .ok t.elts := by
      refine mapM_ok_iff.mpr (List.forall₂_same.mpr fun n hn => ?_)
      simp only [rehashEntry, h.stored.hashed n hn, Bind.bind, Except.bind]
    obtain ⟨hplaced, hperm⟩ :=
      distribute_ok fun (n : Hashelt ν) (_ : n ∈ t.elts) => slot_lt h.two_le n
    refine ⟨{ t with rehashp := false, table := distribute (slot t.size) t.elts }, ?_,
      ⟨h.two_le, hplaced, ?_, h.stored.perm hperm.symm⟩, hperm, rfl⟩
    · rw [Table.rehashed, if_pos hrehash, rehash, hkept]
      simp only [helts, Bind.bind, Except.bind, Nat.sub_self, Nat.sub_zero]
    · exact h.count.trans hperm.length_eq.symm
  · exact ⟨t, if_neg hrehash, h, .refl _, rfl⟩

/-- The search finds the first entry with the same key. -/
theorem searchBucket_ok (hkey : IsKey heap key) {hash : BitVec 64}
    (hhash : keyHash heap address pointerhashp key = .ok hash) {bucket : List (Hashelt ν)}
    (hbucket : ∀ n ∈ bucket, keyHash heap address pointerhashp n.key = .ok n.hash) :
    ∃ before rest, searchBucket heap pointerhashp key hash bucket = .ok (before, rest) ∧
      bucket = before ++ rest ∧ (∀ n ∈ before, ¬SameKey heap pointerhashp key n.key) ∧
      ∀ n ∈ rest.head?, SameKey heap pointerhashp key n.key := by
  induction bucket with
  | nil => exact ⟨[], [], rfl, rfl, by simp, by simp⟩
  | cons n bucket ih =>
      obtain ⟨found, hfound, hiff⟩ : ∃ found, (if key = n.key then .ok true
          else if !pointerhashp && decide (hash = n.hash) then eqTest heap key n.key
          else .ok false) = .ok found ∧ (found = true ↔ SameKey heap pointerhashp key n.key) := by
        by_cases heq : key = n.key
        · rw [← heq]
          exact ⟨true, if_pos rfl, iff_of_true rfl ((sameKey_equivalence heap _).refl key)⟩
        · rw [if_neg heq]
          cases pointerhashp with
          | true => exact ⟨false, rfl, by simp [heq]⟩
          | false =>
              have hn : hashValue heap n.key = .ok n.hash := hbucket n (by simp)
              have hk : hashValue heap key = .ok hash := hhash
              by_cases hsame : hash = n.hash
              · obtain ⟨ans, hans, hiff⟩ := hkey.eqTest n.key
                exact ⟨ans, by simpa [hsame] using hans, by simp [hiff, hn, hk, hsame]⟩
              · exact ⟨false, by simp [hsame], by simp [hn, hk, hsame]⟩
      obtain ⟨before, rest, hsearch, hsplit, hbefore, hrest⟩ :=
        ih fun n' hn' => hbucket n' (List.mem_cons_of_mem n hn')
      cases found with
      | true =>
          refine ⟨[], n :: bucket, ?_, rfl, by simp, by simpa using hiff⟩
          simp only [searchBucket, hfound, Bind.bind, Except.bind, if_true]
      | false =>
          refine ⟨n :: before, rest, ?_, by rw [hsplit, List.cons_append], ?_, hrest⟩
          · simp only [searchBucket, hfound, Bind.bind, Except.bind, hsearch]
            rfl
          · exact List.forall_mem_cons.mpr ⟨by simpa using hiff, hbefore⟩

/-- What a search in the bucket of the key finds. -/
structure FoundKey (heap : ν → Object (Option ν)) (address : ν → BitVec 64) (t : Hashtable ν)
    (key : Option ν) (hash : BitVec 64) (before rest : List (Hashelt ν)) : Prop where
  hash_eq : keyHash heap address t.pointerhashp key = .ok hash
  search_eq : searchBucket heap t.pointerhashp key hash (t.table (hash.toNat % t.size)) =
    .ok (before, rest)
  bucket : t.table (hash.toNat % t.size) = before ++ rest
  absent : rest = [] → ∀ n ∈ t.elts, ¬SameKey heap t.pointerhashp key n.key
  present : ∀ n ∈ rest.head?, n ∈ t.elts ∧ SameKey heap t.pointerhashp key n.key

theorem WellFormed.index_lt (h : WellFormed heap address t) (hash : BitVec 64) :
    hash.toNat % t.size < t.size :=
  Nat.mod_lt _ (by have := h.two_le; omega)

theorem WellFormed.found (h : WellFormed heap address t) (hkey : IsKey heap key) :
    ∃ hash before rest, FoundKey heap address t key hash before rest := by
  obtain ⟨hash, hhash⟩ := hkey.keyHash_ok address t.pointerhashp
  have hmem : ∀ n ∈ t.table (hash.toNat % t.size), n ∈ t.elts :=
    fun n hn => mem_entries.mpr ⟨_, h.index_lt _, hn⟩
  obtain ⟨before, rest, hsearch, hsplit, hbefore, hrest⟩ :=
    searchBucket_ok hkey hhash fun n hn => h.stored.hashed n (hmem n hn)
  refine ⟨hash, before, rest, hhash, hsearch, hsplit, ?_, fun n hn => ?_⟩
  · rintro rfl n hn hsame
    -- an entry with the same key has its hash value, and so is in the bucket
    have hhash' := hsame.hash_eq address
    rw [hhash, h.stored.hashed n hn, Except.ok.injEq] at hhash'
    have hbucket := (h.placed.mem_bucket hn).2
    rw [slot, ← hhash', hsplit, List.append_nil] at hbucket
    exact hbefore n hbucket hsame
  · refine ⟨hmem n ?_, hrest n hn⟩
    rw [hsplit]
    exact List.mem_append_right before (List.mem_of_mem_head? hn)

/-! ## The accesses -/

/-- **`htable_get` finds the entry with the same key.** -/
theorem WellFormed.get (h : WellFormed heap address t) (hkey : IsKey heap key) :
    ∃ v t', getKey heap address t key = .ok (v, t') ∧ Reordered heap address t t' ∧
      ((v = none ∧ ∀ n ∈ t.elts, ¬SameKey heap t.pointerhashp key n.key) ∨
        ∃ n ∈ t.elts, SameKey heap t.pointerhashp key n.key ∧ v = n.value) := by
  obtain ⟨t', ht', hsame⟩ := h.rehashed
  obtain ⟨hash, before, rest, hfound⟩ := hsame.wellFormed.found hkey
  cases rest with
  | nil =>
      refine ⟨none, t', ?_, hsame, .inl ⟨rfl, fun n hn => ?_⟩⟩
      · simp only [getKey, ht', hfound.hash_eq, hfound.search_eq, Bind.bind, Except.bind]
      · rw [← hsame.kind]
        exact hfound.absent rfl n (hsame.elts.mem_iff.mpr hn)
  | cons n after =>
      obtain ⟨hn, hkeys⟩ := hfound.present n (by simp)
      refine ⟨n.value, t', ?_, hsame, .inr ⟨n, hsame.elts.mem_iff.mp hn, hsame.kind ▸ hkeys, rfl⟩⟩
      simp only [getKey, ht', hfound.hash_eq, hfound.search_eq, Bind.bind, Except.bind]

/-- **`htable_set` keeps the invariant.** -/
theorem WellFormed.set (h : WellFormed heap address t) (hkey : IsKey heap key)
    (hvalue : Acyclic heap (alive heap value)) :
    ∃ t', setKey heap address t key value = .ok t' ∧ WellFormed heap address t' ∧
      t'.pointerhashp = t.pointerhashp := by
  obtain ⟨t', ht', hsame⟩ := h.rehashed
  have ht := hsame.wellFormed
  obtain ⟨hash, before, rest, hfound⟩ := ht.found hkey
  have hlt := ht.index_lt hash
  have hbucket : ∀ n ∈ t'.table (hash.toNat % t'.size), slot t'.size n = hash.toNat % t'.size :=
    ht.placed _ hlt
  rw [hfound.bucket] at hbucket
  simp only [setKey, isZombie_eq_false hkey.alive, ht', hfound.hash_eq, hfound.search_eq,
    Bind.bind, Except.bind, Bool.false_eq_true, if_false]
  cases halive : alive heap value with
  | none =>
      cases rest with
      | nil => exact ⟨t', rfl, ht, hsame.kind⟩
      | cons n after =>
          -- the entry is taken out of its bucket
          have hperm := entries_remove hlt hfound.bucket
          refine ⟨_, rfl, ⟨ht.two_le, ht.placed.update fun n' hn' => hbucket n' ?_, ?_,
            (ht.stored.perm hperm).tail⟩, hsame.kind⟩
          · rcases List.mem_append.mp hn' with hn' | hn'
            exacts [List.mem_append_left _ hn', List.mem_append_right _ (List.mem_cons_of_mem n hn')]
          · have := hperm.length_eq
            simp only [ht.count, Htable.elts, List.length_cons] at this ⊢
            omega
  | some v =>
      have hv : some v ≠ none ∧ alive heap (some v) = some v ∧ Acyclic heap (some v) := by
        rw [← halive]
        exact ⟨by simp [halive], alive_alive value, hvalue⟩
      cases rest with
      | nil =>
          -- a new entry, perhaps in a larger table
          obtain ⟨t1, ht1, hsize, hplaced, helts, hcount⟩ := grow_ok ht.two_le ht.placed
            (show 3 * t'.nelems + 1 ≤ 2 * t'.size + (3 * t'.nelems + 1) by omega) (by omega)
          have hslot : slot t1.size (⟨hash, key, some v⟩ : Hashelt ν) < t1.size :=
            slot_lt hsize _
          have hperm := entries_push t1.table hslot
          simp only [ht1]
          refine ⟨_, rfl, ⟨hsize, hplaced.push hslot, ?_, ?_⟩, hsame.kind⟩
          · rw [Htable.elts, hperm.length_eq, List.length_cons]
            exact congrArg (· + 1) (ht.count.trans helts.length_eq.symm)
          · refine Stored.perm ((ht.stored.perm helts.symm).add hkey hfound.hash_eq hv ?_) hperm.symm
            exact fun n hn => hfound.absent rfl n (helts.mem_iff.mp hn)
      | cons n after =>
          -- the entry with the same key gets the value
          obtain ⟨hmem, -⟩ := hfound.present n (by simp)
          have hperm := entries_remove hlt hfound.bucket
          have hinsert := entries_insert t'.table hlt { n with value := some v } before after
          have hrest := ht.stored.perm hperm
          refine ⟨_, rfl, ⟨ht.two_le, ht.placed.update fun n' hn' => ?_, ?_, ?_⟩, hsame.kind⟩
          · rcases List.mem_append.mp hn' with hn' | hn'
            · exact hbucket n' (List.mem_append_left _ hn')
            · rcases List.mem_cons.mp hn' with rfl | hn'
              · exact hbucket n (List.mem_append_right _ (by simp))
              · exact hbucket n' (List.mem_append_right _ (List.mem_cons_of_mem n hn'))
          · have h1 := hperm.length_eq
            have h2 := hinsert.length_eq
            simp only [List.length_cons] at h1 h2
            rw [ht.count, Htable.elts, Htable.elts, h1, h2]
          · refine Stored.perm (hrest.tail.add (n := { n with value := some v })
              (ht.stored.keys n hmem) (ht.stored.hashed n hmem) hv ?_) hinsert.symm
            exact (List.pairwise_cons.mp hrest.distinct).1

/-- The keys of a call are keys, and its value has no cycle. -/
def Action.Fine (heap : ν → Object (Option ν)) : Action ν → Prop
  | .set key value => IsKey heap key ∧ Acyclic heap (alive heap value)
  | .get key => IsKey heap key
  | .rehash => True

theorem wellFormed_new (nelems : ℤ) (pointerhashp : Bool) :
    WellFormed heap address (newHashtable nelems pointerhashp) := by
  have hempty : (newHashtable nelems pointerhashp : Hashtable ν).elts = [] := entries_empty _
  refine ⟨?_, fun i _ n hn => ?_, ?_, ?_⟩
  · simp only [newHashtable, newHtable]
    split <;> omega
  · cases hn
  · rw [hempty]
    rfl
  · rw [hempty]
    exact ⟨by simp, by simp, by simp, .nil⟩

theorem WellFormed.stepKey (h : WellFormed heap address t) {a : Action ν} (ha : a.Fine heap) :
    ∃ t', stepKey heap address t a = some t' ∧ WellFormed heap address t' ∧
      t'.pointerhashp = t.pointerhashp := by
  cases a with
  | set key value =>
      obtain ⟨t', ht', hwf, hkind⟩ := h.set ha.1 ha.2
      exact ⟨t', by simp [Table.stepKey, ht', Except.toOption], hwf, hkind⟩
  | get key =>
      obtain ⟨v, t', ht', hsame, -⟩ := h.get ha
      exact ⟨t', by simp [Table.stepKey, ht', Except.toOption], hsame.wellFormed, hsame.kind⟩
  | rehash => exact ⟨_, rfl, ⟨h.two_le, h.placed, h.count, h.stored⟩, rfl⟩

/-- **Every run keeps the invariant.** -/
theorem WellFormed.runKeys (h : WellFormed heap address t) {acts : List (Action ν)}
    (hacts : ∀ a ∈ acts, a.Fine heap) :
    ∃ t', run (Table.stepKey heap address) t acts = some t' ∧ WellFormed heap address t' ∧
      t'.pointerhashp = t.pointerhashp := by
  induction acts generalizing t with
  | nil => exact ⟨t, rfl, h, rfl⟩
  | cons a acts ih =>
      obtain ⟨t1, ht1, h1, hkind1⟩ := h.stepKey (hacts a (by simp))
      obtain ⟨t', ht', h', hkind'⟩ := ih h1 fun b hb => hacts b (by simp [hb])
      exact ⟨t', run_cons.mpr ⟨t1, ht1, ht'⟩, h', hkind'.trans hkind1⟩

/-! ## The comparison -/

/-- Every pair of the first table is one of the second, for the keys of the second. -/
def Matches (heap : ν → Object (Option ν)) (p q : Hashtable ν) : Prop :=
  ∀ n ∈ p.elts, ∃ n' ∈ q.elts, SameKey heap q.pointerhashp n.key n'.key ∧
    Agree heap n.value n'.value

theorem compareLoop_ok {q : Hashtable ν} (h : WellFormed heap address q)
    (hkeys : ∀ n ∈ es, IsKey heap n.key) :
    ∃ c q', compareLoop heap address es q = .ok (c, q') ∧ (c = 0 ↔ ∀ n ∈ es, ∃ n' ∈ q.elts,
      SameKey heap q.pointerhashp n.key n'.key ∧ Agree heap n.value n'.value) := by
  induction es generalizing q with
  | nil => exact ⟨0, q, rfl, by simp⟩
  | cons n es ih =>
      obtain ⟨v, q', hget, hsame, hv⟩ := h.get (hkeys n (by simp))
      rcases hv with ⟨rfl, hnone⟩ | ⟨n', hn', hkey, rfl⟩
      · refine ⟨1, q', by simp only [compareLoop, hget, Bind.bind, Except.bind], ?_⟩
        refine iff_of_false one_ne_zero fun hall => ?_
        obtain ⟨n', hn', hkey, -⟩ := hall n (by simp)
        exact hnone n' hn' hkey
      obtain ⟨val, hval⟩ := Option.ne_none_iff_exists'.mp (h.stored.values n' hn').1
      obtain ⟨c, hc, hiff⟩ := eqTest_acyclic (h.stored.values n' hn').2.2 n.value
      obtain ⟨d, q'', hloop, hd⟩ := ih hsame.wellFormed fun m hm => hkeys m (by simp [hm])
      rw [hval] at hget hc
      cases c with
      | false =>
          refine ⟨1, q', by simp [compareLoop, hget, hc, Bind.bind, Except.bind], ?_⟩
          refine iff_of_false one_ne_zero fun hall => ?_
          -- the entry with the same key is the one that was found
          obtain ⟨m, hm, hkey', hagree⟩ := hall n (by simp)
          have hunique : m = n' := by
            by_contra hne
            have : Std.Symm fun n n' : Hashelt ν => ¬SameKey heap q.pointerhashp n.key n'.key :=
              ⟨fun _ _ hnot hsame => hnot hsame.symm⟩
            exact h.stored.distinct.forall hm hn' hne (hkey'.symm.trans hkey)
          exact Bool.false_ne_true (hiff.mpr (hunique ▸ hagree.symm))
      | true =>
          refine ⟨d, q'', by simp [compareLoop, hget, hc, Bind.bind, Except.bind, hloop], ?_⟩
          rw [hd, List.forall_mem_cons, hsame.kind]
          have hhere : ∃ n' ∈ q.elts, SameKey heap q.pointerhashp n.key n'.key ∧
              Agree heap n.value n'.value := ⟨n', hn', hkey, (hiff.mp rfl).symm⟩
          simp only [hhere, true_and, hsame.elts.mem_iff]

/-- **`htable_compare` looks the pairs of the first table up in the second.** -/
theorem htableCompare_ok {p q : Hashtable ν} (hp : WellFormed heap address p)
    (hq : WellFormed heap address q) :
    ∃ c q', htableCompare heap address p q 0 = .ok (c, q') ∧
      (c = 0 ↔ p.nelems = q.nelems ∧ Matches heap p q) := by
  by_cases hcount : p.nelems = q.nelems
  · obtain ⟨c, q', hloop, hc⟩ := compareLoop_ok hq hp.stored.keys
    exact ⟨c, q', by simp [htableCompare, hcount, hloop], by simp [hcount, hc, Matches]⟩
  · exact ⟨1, q, by simp [htableCompare, hcount], by simp [hcount]⟩

/-- Pairs found in the second table, one for each of the first; no two of the first are
found as one. -/
theorem Matches.exists_subperm {p q : Hashtable ν} (h : Matches heap p q)
    (hp : WellFormed heap address p) (hkind : p.pointerhashp = q.pointerhashp) :
    ∃ found : Hashelt ν → Hashelt ν, (p.elts.map found).Subperm q.elts ∧ ∀ n ∈ p.elts,
      SameKey heap q.pointerhashp n.key (found n).key ∧ Agree heap n.value (found n).value := by
  have : Nonempty (Hashelt ν) := ⟨⟨0, none, none⟩⟩
  choose! found hfound using h
  have hnodup : (p.elts.map found).Nodup := by
    rw [List.Nodup, List.pairwise_map]
    refine hp.stored.distinct.imp_of_mem fun {n m} hn hm hne heq => hne ?_
    rw [hkind]
    exact (hfound n hn).2.1.trans (heq ▸ (hfound m hm).2.1.symm)
  refine ⟨found, hnodup.subperm fun n' hn' => ?_, fun n hn => (hfound n hn).2⟩
  obtain ⟨n, hn, rfl⟩ := List.mem_map.mp hn'
  exact (hfound n hn).1

theorem Matches.le {p q : Hashtable ν} (h : Matches heap p q) (hp : WellFormed heap address p)
    (hq : WellFormed heap address q) (hkind : p.pointerhashp = q.pointerhashp) :
    p.nelems ≤ q.nelems := by
  obtain ⟨found, hsub, -⟩ := h.exists_subperm hp hkind
  simpa [hp.count, hq.count] using hsub.length_le

/-- **As many pairs, and all of them found: then every pair is found.** -/
theorem Matches.symm {p q : Hashtable ν} (h : Matches heap p q) (hp : WellFormed heap address p)
    (hq : WellFormed heap address q) (hkind : p.pointerhashp = q.pointerhashp)
    (hcount : p.nelems = q.nelems) : Matches heap q p := by
  obtain ⟨found, hsub, hfound⟩ := h.exists_subperm hp hkind
  have hperm : (p.elts.map found).Perm q.elts := by
    apply hsub.perm_of_length_le
    rw [List.length_map, ← hp.count, ← hq.count, hcount]
  intro n' hn'
  obtain ⟨n, hn, rfl⟩ := List.mem_map.mp (hperm.mem_iff.mpr hn')
  obtain ⟨hkey, hagree⟩ := hfound n hn
  exact ⟨n, hn, hkind ▸ hkey.symm, hagree.symm⟩

/-! ## The result -/

/-- The equality of keys that a kind of table stands for: identity, or `eq_test`. -/
def KeyEq (heap : ν → Object (Option ν)) (pointerhashp : Bool) (k k' : Option ν) : Prop :=
  if pointerhashp then k = k' else Agree heap k k'

/-- The same pairs, with values up to `eq_test`. -/
def SamePairs (heap : ν → Object (Option ν)) (keyEq : Option ν → Option ν → Prop)
    (p q : Hashtable ν) : Prop :=
  (∀ n ∈ p.elts, ∃ n' ∈ q.elts, keyEq n.key n'.key ∧ Agree heap n.value n'.value) ∧
    ∀ n' ∈ q.elts, ∃ n ∈ p.elts, keyEq n.key n'.key ∧ Agree heap n.value n'.value

/-- No key of one table has a zero where a key of the other, otherwise equal, has the
zero of the other sign. -/
def NoZeros (heap : ν → Object (Option ν)) (p q : Hashtable ν) : Prop :=
  ∀ n ∈ p.elts, ∀ n' ∈ q.elts, ¬Zeros heap n.key n'.key

/-- Without such zeros, equal keys are the same key. -/
theorem sameKey_iff {p q : Hashtable ν} (hp : WellFormed heap address p)
    (hq : WellFormed heap address q) (hzeros : pointerhashp = false → NoZeros heap p q)
    {n n' : Hashelt ν} (hn : n ∈ p.elts) (hn' : n' ∈ q.elts) :
    SameKey heap pointerhashp n.key n'.key ↔ KeyEq heap pointerhashp n.key n'.key := by
  cases pointerhashp with
  | true => rfl
  | false =>
      refine ⟨fun h => h.1, fun h => ⟨h, ?_⟩⟩
      obtain ⟨tree, htree⟩ := hp.stored.keys n hn
      obtain ⟨tree', htree'⟩ := hq.stored.keys n' hn'
      rcases htree.eq_or_zeros htree' h with rfl | hz
      · rw [hashValue_ok htree, hashValue_ok htree']
      · exact absurd hz (hzeros rfl n hn n' hn')

theorem matches_iff_samePairs {p q : Hashtable ν} (hp : WellFormed heap address p)
    (hq : WellFormed heap address q) (hpk : p.pointerhashp = pointerhashp)
    (hqk : q.pointerhashp = pointerhashp) (hzeros : pointerhashp = false → NoZeros heap p q) :
    p.nelems = q.nelems ∧ Matches heap p q ↔ SamePairs heap (KeyEq heap pointerhashp) p q := by
  have hkind : p.pointerhashp = q.pointerhashp := hpk.trans hqk.symm
  have hforth : Matches heap p q ↔ ∀ n ∈ p.elts, ∃ n' ∈ q.elts,
      KeyEq heap pointerhashp n.key n'.key ∧ Agree heap n.value n'.value := by
    refine forall₂_congr fun n hn => exists_congr fun n' => and_congr_right fun hn' => ?_
    rw [hqk, sameKey_iff hp hq hzeros hn hn']
  have hback : Matches heap q p ↔ ∀ n' ∈ q.elts, ∃ n ∈ p.elts,
      KeyEq heap pointerhashp n.key n'.key ∧ Agree heap n.value n'.value := by
    refine forall₂_congr fun n' hn' => exists_congr fun n => and_congr_right fun hn => ?_
    rw [hpk, ← sameKey_iff hp hq hzeros hn hn']
    exact and_congr ⟨SameKey.symm, SameKey.symm⟩ ⟨Agree.symm, Agree.symm⟩
  rw [SamePairs, ← hforth, ← hback]
  constructor
  · rintro ⟨hcount, hmatches⟩
    exact ⟨hmatches, hmatches.symm hp hq hkind hcount⟩
  · rintro ⟨hmatches, hmatches'⟩
    exact ⟨le_antisymm (hmatches.le hp hq hkind) (hmatches'.le hq hp hkind.symm), hmatches⟩

omit [DecidableEq ν] [Fintype ν] in
theorem Zeros.symm {k k' : Option ν} (h : Zeros heap k k') : Zeros heap k' k := by
  obtain ⟨path, a, b, x, y, ha, hx, hb, hy, hzx, hzy, hne⟩ := h
  exact ⟨path, b, a, y, x, hb, hy, ha, hx, hzy, hzx, hne.symm⟩

omit [DecidableEq ν] [Fintype ν] in
theorem SamePairs.symm {p q : Hashtable ν}
    (h : SamePairs heap (KeyEq heap pointerhashp) p q) :
    SamePairs heap (KeyEq heap pointerhashp) q p := by
  have hkey : ∀ {k k'}, KeyEq heap pointerhashp k k' → KeyEq heap pointerhashp k' k := by
    intro k k' h
    cases pointerhashp with
    | true => exact Eq.symm h
    | false => exact Agree.symm h
  refine ⟨fun n' hn' => ?_, fun n hn => ?_⟩
  · obtain ⟨n, hn, hk, hv⟩ := h.2 n' hn'
    exact ⟨n, hn, hkey hk, hv.symm⟩
  · obtain ⟨n', hn', hk, hv⟩ := h.1 n hn
    exact ⟨n', hn', hkey hk, hv.symm⟩

end WellFormed

/-! ## Equal keys in tables of pointers -/

/-- Three objects. -/
inductive Twin
  | first
  | second
  | one
deriving DecidableEq

instance : Fintype Twin where
  elems := {.first, .second, .one}
  complete x := by cases x <;> decide

/-- Two strings with the same contents, and the number 1. -/
def twins : Twin → Object (Option Twin)
  | .first | .second => .string ⟨[97], by decide⟩
  | .one => .number 0x3ff0000000000000#64

/-- Where they are. -/
def twinAddress : Twin → BitVec 64
  | .first => 0x1000#64
  | .second => 0x1020#64
  | .one => 0x1040#64

theorem isKey_first : IsKey twins (some .first) :=
  ⟨_, .string rfl⟩

theorem acyclic_twins (p : Option Twin) : Acyclic twins p := by
  refine ⟨_, fun q hq => ?_⟩
  obtain ⟨a, rfl, hq⟩ := hq
  cases a <;> cases hq

theorem agree_twins : Agree twins (some .first) (some .second) := by
  rintro (_ | ⟨f, path⟩)
  · exact agreeAt_nil.mpr (.inr ⟨_, _, rfl, rfl, rfl⟩)
  · cases f <;> exact .none

end Lush.Table
