import Lush.Library.Runs
import Lush.Table.Htable

/-!
# Hash tables are finite maps

The abstract table is a function from keys to values, where keys that are equal
for `eq_test` are not told apart.  `Represents` says that a table stands for
such a function: each entry is in its bucket with the hash value of its key, no
two keys are equal, and the entries are those of the function.  Resizing and
rehashing permute the entries, and so keep it.

A search looks only at the entries whose hash value is that of the key.  So a
call needs that the key has the hash value of the entry it is equal to
(`Coherent`); that is all it needs, and keys that are equal for `eq_test` have
it unless they hold zeros of different signs (`coherent_or_zeros`).
-/

namespace Lush.Table

open Buckets Runs

variable {ν : Type} {heap : ν → Object (Option ν)}

/-! ## Keys -/

/-- A value built from numbers, strings, symbols and cells, without a cycle. -/
def IsKey (heap : ν → Object (Option ν)) (p : Option ν) : Prop :=
  ∃ t, Reads heap p t

section Keys

variable [DecidableEq ν]

theorem isZombie_eq_false {p : Option ν} (h : alive heap p = p) : isZombie heap p = false := by
  cases p with
  | none => rfl
  | some a =>
      by_cases hz : heap a = .zombie
      · simp [alive, hz] at h
      · simp [isZombie, hz]

theorem IsKey.alive {k : Option ν} (h : IsKey heap k) : alive heap k = k := by
  obtain ⟨t, ht⟩ := h
  cases k with
  | none => rfl
  | some a => exact if_neg ht.not_zombie

theorem alive_alive (p : Option ν) : alive heap (alive heap p) = alive heap p := by
  cases p with
  | none => rfl
  | some a => by_cases hz : heap a = .zombie <;> simp [Lush.alive, hz]

variable [Fintype ν]

theorem IsKey.eqTest {k : Option ν} (h : IsKey heap k) (k' : Option ν) :
    ∃ ans, eqTest heap k k' = .ok ans ∧ (ans = true ↔ Agree heap k k') := by
  obtain ⟨t, ht⟩ := h
  exact eqTest_acyclic ht.acyclic k'

theorem IsKey.eqTest_iff {k k' : Option ν} (h : IsKey heap k) :
    Lush.eqTest heap k k' = .ok true ↔ Agree heap k k' := by
  obtain ⟨ans, hans, hiff⟩ := h.eqTest k'
  rw [hans, ← hiff, Except.ok.injEq]

end Keys

/-! ## What a table stands for -/

section Represents

variable [DecidableEq ν] [Fintype ν]

/-- The function after a call of `htable_set`. -/
def assign (heap : ν → Object (Option ν)) (m : Option ν → Option ν) (key value k : Option ν) :
    Option ν :=
  if eqTest heap k key = .ok true then alive heap value else m k

/-- The entries, in any order, are those of the function. -/
structure Contents (heap : ν → Object (Option ν)) (es : List (Hashelt ν))
    (m : Option ν → Option ν) : Prop where
  keys : ∀ n ∈ es, IsKey heap n.key
  hashed : ∀ n ∈ es, hashValue heap n.key = .ok n.hash
  values : ∀ n ∈ es, n.value ≠ none ∧ alive heap n.value = n.value
  distinct : es.Pairwise fun n n' => ¬Agree heap n.key n'.key
  maps : ∀ k, IsKey heap k → ∀ v, m k = some v ↔ ∃ n ∈ es, Agree heap k n.key ∧ n.value = some v

/-- The table stands for the function. -/
structure Represents (heap : ν → Object (Option ν)) (t : Htable ν) (m : Option ν → Option ν) :
    Prop where
  two_le : 2 ≤ t.size
  placed : Placed (slot t.size) t.size t.table
  count : t.nelems = t.elts.length
  contents : Contents heap t.elts m

variable {es es' : List (Hashelt ν)} {m : Option ν → Option ν} {key value : Option ν}
  {n : Hashelt ν}

theorem Contents.perm (h : Contents heap es m) (hperm : es.Perm es') : Contents heap es' m where
  keys n hn := h.keys n (hperm.mem_iff.mpr hn)
  hashed n hn := h.hashed n (hperm.mem_iff.mpr hn)
  values n hn := h.values n (hperm.mem_iff.mpr hn)
  distinct := (hperm.pairwise_iff fun hne heq => hne heq.symm).mp h.distinct
  maps k hk v := by
    rw [h.maps k hk v]
    exact exists_congr fun n => and_congr_left fun _ => hperm.mem_iff

theorem assign_pos {k : Option ν} (hk : IsKey heap k) (h : Agree heap k key) :
    assign heap m key value k = alive heap value :=
  if_pos (hk.eqTest_iff.mpr h)

theorem assign_neg {k : Option ν} (hk : IsKey heap k) (h : ¬Agree heap k key) :
    assign heap m key value k = m k :=
  if_neg (hk.eqTest_iff.not.mpr h)

theorem assign_assign (value' : Option ν) :
    assign heap (assign heap m key value') key value = assign heap m key value := by
  funext k
  by_cases h : eqTest heap k key = .ok true
  · simp only [assign, if_pos h]
  · simp only [assign, if_neg h]

/-- No entry for the key: there is nothing to remove. -/
theorem Contents.absent (h : Contents heap es m) (hnone : ∀ n ∈ es, ¬Agree heap key n.key) :
    Contents heap es (assign heap m key none) where
  keys := h.keys
  hashed := h.hashed
  values := h.values
  distinct := h.distinct
  maps k hk v := by
    by_cases hagree : Agree heap k key
    · rw [assign_pos hk hagree]
      simp only [Lush.alive, reduceCtorEq, false_iff, not_exists, not_and]
      exact fun n hn hkn => absurd (hagree.symm.trans hkn) (hnone n hn)
    · rw [assign_neg hk hagree]
      exact h.maps k hk v

/-- The entry for the key is removed. -/
theorem Contents.remove (h : Contents heap (n :: es) m) (hkey : Agree heap key n.key) :
    Contents heap es (assign heap m key none) where
  keys n' hn' := h.keys n' (List.mem_cons_of_mem n hn')
  hashed n' hn' := h.hashed n' (List.mem_cons_of_mem n hn')
  values n' hn' := h.values n' (List.mem_cons_of_mem n hn')
  distinct := (List.pairwise_cons.mp h.distinct).2
  maps k hk v := by
    by_cases hagree : Agree heap k key
    · rw [assign_pos hk hagree]
      simp only [Lush.alive, reduceCtorEq, false_iff, not_exists, not_and]
      intro n' hn' hkn
      have hnn' := (hagree.trans hkey).symm.trans hkn
      exact absurd hnn' ((List.pairwise_cons.mp h.distinct).1 n' hn')
    · rw [assign_neg hk hagree, h.maps k hk v]
      refine ⟨fun ⟨n', hn', hkn, hv⟩ => ?_, fun ⟨n', hn', hkn, hv⟩ =>
        ⟨n', List.mem_cons_of_mem n hn', hkn, hv⟩⟩
      rcases List.mem_cons.mp hn' with rfl | hn'
      · exact absurd (hkn.trans hkey.symm) hagree
      · exact ⟨n', hn', hkn, hv⟩

/-- An entry for the key is added. -/
theorem Contents.add (h : Contents heap es m) (hnone : ∀ n' ∈ es, ¬Agree heap key n'.key)
    (hn : IsKey heap n.key) (hagree : Agree heap key n.key) (hhash : hashValue heap n.key = .ok n.hash)
    (hvalue : n.value = alive heap value) (hsome : alive heap value ≠ none) :
    Contents heap (n :: es) (assign heap m key value) where
  keys n' hn' := by
    rcases List.mem_cons.mp hn' with rfl | hn'
    exacts [hn, h.keys n' hn']
  hashed n' hn' := by
    rcases List.mem_cons.mp hn' with rfl | hn'
    exacts [hhash, h.hashed n' hn']
  values n' hn' := by
    rcases List.mem_cons.mp hn' with rfl | hn'
    · rw [hvalue]
      exact ⟨hsome, alive_alive value⟩
    · exact h.values n' hn'
  distinct := by
    refine List.pairwise_cons.mpr ⟨fun n' hn' hnn' => ?_, h.distinct⟩
    exact hnone n' hn' (hagree.trans hnn')
  maps k hk v := by
    by_cases hk' : Agree heap k key
    · rw [assign_pos hk hk']
      refine ⟨fun hv => ⟨n, by simp, hk'.trans hagree, by rw [hvalue, hv]⟩, ?_⟩
      rintro ⟨n', hn', hkn, hv⟩
      rcases List.mem_cons.mp hn' with rfl | hn'
      · rw [← hvalue, hv]
      · exact absurd (hk'.symm.trans hkn) (hnone n' hn')
    · rw [assign_neg hk hk', h.maps k hk v]
      refine ⟨fun ⟨n', hn', hkn, hv⟩ => ⟨n', List.mem_cons_of_mem n hn', hkn, hv⟩, ?_⟩
      rintro ⟨n', hn', hkn, hv⟩
      rcases List.mem_cons.mp hn' with rfl | hn'
      · exact absurd (hkn.trans hagree.symm) hk'
      · exact ⟨n', hn', hkn, hv⟩

/-! ## Resizing and rehashing -/

variable {t : Htable ν}

omit [DecidableEq ν] [Fintype ν] in
theorem slot_lt {size : ℕ} (hsize : 2 ≤ size) (n : Hashelt ν) : slot size n < size :=
  Nat.mod_lt _ (by omega)

/-- Entries that stand for the function may be distributed anew. -/
theorem Represents.distribute {size nelems : ℕ} {rehashp : Bool} (hsize : 2 ≤ size)
    (hcount : nelems = es.length) (h : Contents heap es m) :
    Represents heap ⟨size, nelems, rehashp, distribute (slot size) es⟩ m ∧
      (entries size (distribute (slot size) es)).Perm es := by
  obtain ⟨hplaced, hperm⟩ := distribute_ok fun (n : Hashelt ν) (_ : n ∈ es) => slot_lt hsize n
  exact ⟨⟨hsize, hplaced, hcount.trans hperm.length_eq.symm, h.perm hperm.symm⟩, hperm⟩

/-- Another table with the same entries. -/
structure Same (heap : ν → Object (Option ν)) (t t' : Htable ν) (m : Option ν → Option ν) :
    Prop where
  represents : Represents heap t' m
  elts : t'.elts.Perm t.elts

omit [DecidableEq ν] [Fintype ν] in
/-- **Growing a table moves its entries only.** -/
theorem grow_ok (hsize : 2 ≤ t.size) (hplaced : Placed (slot t.size) t.size t.table) {fuel : ℕ}
    (hfuel : 3 * t.nelems + 1 ≤ 2 * t.size + fuel) (hpos : 0 < fuel) :
    ∃ t', grow fuel t = .ok t' ∧ 2 ≤ t'.size ∧ Placed (slot t'.size) t'.size t'.table ∧
      t'.elts.Perm t.elts ∧ t'.nelems = t.nelems := by
  induction fuel generalizing t with
  | zero => exact absurd hpos (Nat.lt_irrefl 0)
  | succ fuel ih =>
      rw [Table.grow]
      by_cases hlt : 2 * t.size < 3 * t.nelems
      · rw [if_pos hlt]
        have hlarger : 2 ≤ 2 * t.size - 1 := by omega
        obtain ⟨hplaced1, hperm1⟩ :=
          distribute_ok fun (n : Hashelt ν) (_ : n ∈ t.elts) => slot_lt hlarger n
        obtain ⟨t', ht', h2, hplaced', hperm, hcount⟩ := ih (t := Table.resize t (2 * t.size - 1))
          hlarger hplaced1 (by simp only [Table.resize]; omega) (by omega)
        exact ⟨t', ht', h2, hplaced', hperm.trans hperm1, hcount⟩
      · exact ⟨t, if_neg hlt, hsize, hplaced, .refl _, rfl⟩

theorem Represents.grow (h : Represents heap t m) {fuel : ℕ}
    (hfuel : 3 * t.nelems + 1 ≤ 2 * t.size + fuel) (hpos : 0 < fuel) :
    ∃ t', grow fuel t = .ok t' ∧ Same heap t t' m ∧ t'.nelems = t.nelems := by
  obtain ⟨t', ht', hsize, hplaced, hperm, hcount⟩ := grow_ok h.two_le h.placed hfuel hpos
  refine ⟨t', ht', ⟨⟨hsize, hplaced, ?_, h.contents.perm hperm.symm⟩, hperm⟩, hcount⟩
  rw [hcount, h.count, hperm.length_eq]

theorem rehashElt_ok (h : Contents heap es m) : es.mapM (rehashElt heap) = .ok es := by
  have hall : ∀ n ∈ es, rehashElt heap n = .ok n := by
    intro n hn
    simp only [rehashElt, h.hashed n hn, Bind.bind, Except.bind]
  clear h
  induction es with
  | nil => rfl
  | cons n es ih =>
      rw [List.mapM_cons, hall n (by simp), ih fun n' hn' => hall n' (by simp [hn'])]
      rfl

/-- **A rehash finds the hash values as they were.** -/
theorem Represents.checkRehash (h : Represents heap t m) :
    ∃ t', checkRehash heap t = .ok t' ∧ Same heap t t' m := by
  by_cases hrehash : t.rehashp = true
  · have hkept : (t.elts.filter fun n => !(isZombie heap n.key || isZombie heap n.value)) = t.elts := by
      refine List.filter_eq_self.mpr fun n hn => ?_
      rw [isZombie_eq_false (h.contents.keys n hn).alive,
        isZombie_eq_false (h.contents.values n hn).2]
      rfl
    have hsame : Same heap t ⟨t.size, t.nelems, false, Buckets.distribute (slot t.size) t.elts⟩ m :=
      let ⟨hrepresents, hperm⟩ := Represents.distribute h.two_le h.count h.contents
      ⟨hrepresents, hperm⟩
    refine ⟨_, ?_, hsame⟩
    rw [Table.checkRehash, if_pos hrehash, htableRehash, hkept]
    simp only [rehashElt_ok h.contents, Bind.bind, Except.bind, Nat.sub_self, Nat.sub_zero]
  · exact ⟨t, if_neg hrehash, h, .refl _⟩

/-! ## Searching -/

/-- The search finds the first entry with the hash value, and a key that is
equal. -/
theorem search_ok (hkey : IsKey heap key) {hash : BitVec 64} (hhash : hashValue heap key = .ok hash)
    {bucket : List (Hashelt ν)} (hbucket : ∀ n ∈ bucket, hashValue heap n.key = .ok n.hash) :
    ∃ before rest, search heap key hash bucket = .ok (before, rest) ∧ bucket = before ++ rest ∧
      (∀ n ∈ before, n.hash = hash → ¬Agree heap key n.key) ∧
      ∀ n ∈ rest.head?, n.hash = hash ∧ Agree heap key n.key := by
  induction bucket with
  | nil => exact ⟨[], [], rfl, rfl, by simp, by simp⟩
  | cons n bucket ih =>
      obtain ⟨found, hfound, hiff⟩ : ∃ found, (if key = n.key then .ok true
          else if hash = n.hash then eqTest heap key n.key else .ok false) = .ok found ∧
          (found = true ↔ n.hash = hash ∧ Agree heap key n.key) := by
        by_cases heq : key = n.key
        · have hn := hbucket n (by simp)
          rw [← heq, hhash, Except.ok.injEq] at hn
          refine ⟨true, if_pos heq, by simp [hn, ← heq, Agree, AgreeAt.refl]⟩
        · by_cases hsame : hash = n.hash
          · obtain ⟨ans, hans, hiff⟩ := hkey.eqTest n.key
            exact ⟨ans, by rw [if_neg heq, if_pos hsame, hans], by simp [hsame, hiff]⟩
          · exact ⟨false, by rw [if_neg heq, if_neg hsame], by simp [Ne.symm hsame]⟩
      obtain ⟨before, rest, hsearch, hsplit, hbefore, hrest⟩ :=
        ih fun n' hn' => hbucket n' (List.mem_cons_of_mem n hn')
      cases found with
      | true =>
          refine ⟨[], n :: bucket, ?_, rfl, by simp, by simpa using hiff⟩
          simp only [search, hfound, Bind.bind, Except.bind, if_true]
      | false =>
          refine ⟨n :: before, rest, ?_, by rw [hsplit, List.cons_append], fun n' hn' => ?_, hrest⟩
          · simp only [search, hfound, Bind.bind, Except.bind, hsearch]
            rfl
          · rcases List.mem_cons.mp hn' with rfl | hn'
            · simpa using hiff
            · exact hbefore n' hn'

/-- An entry that is equal to the key has the hash value of the key. -/
def Coherent (heap : ν → Object (Option ν)) (t : Htable ν) (key : Option ν) : Prop :=
  ∀ n ∈ t.elts, eqTest heap key n.key = .ok true → hashValue heap key = hashValue heap n.key

theorem Same.coherent {t' : Htable ν} (h : Same heap t t' m) :
    Coherent heap t' key ↔ Coherent heap t key :=
  forall_congr' fun _ => imp_congr_left h.elts.mem_iff

/-- What a search in the bucket of the key finds. -/
structure Found (heap : ν → Object (Option ν)) (t : Htable ν) (key : Option ν) (hash : BitVec 64)
    (before rest : List (Hashelt ν)) : Prop where
  hash_eq : hashValue heap key = .ok hash
  search_eq : search heap key hash (t.table (hash.toNat % t.size)) = .ok (before, rest)
  bucket : t.table (hash.toNat % t.size) = before ++ rest
  absent : rest = [] → Coherent heap t key → ∀ n ∈ t.elts, ¬Agree heap key n.key
  present : ∀ n ∈ rest.head?, n ∈ t.elts ∧ n.hash = hash ∧ Agree heap key n.key

theorem Represents.index_lt (h : Represents heap t m) (hash : BitVec 64) :
    hash.toNat % t.size < t.size :=
  Nat.mod_lt _ (by have := h.two_le; omega)

theorem Represents.found (h : Represents heap t m) (hkey : IsKey heap key) :
    ∃ hash before rest, Found heap t key hash before rest := by
  obtain ⟨tree, htree⟩ := id hkey
  have hhash := hashValue_ok htree
  have hmem : ∀ n ∈ t.table ((tree.hash 0).toNat % t.size), n ∈ t.elts :=
    fun n hn => mem_entries.mpr ⟨_, h.index_lt _, hn⟩
  obtain ⟨before, rest, hsearch, hsplit, hbefore, hrest⟩ :=
    search_ok hkey hhash fun n hn => h.contents.hashed n (hmem n hn)
  refine ⟨_, before, rest, hhash, hsearch, hsplit, ?_, fun n hn => ?_⟩
  · rintro rfl hcoherent n hn hagree
    -- an entry with the hash value of the key is in the bucket that was searched
    have hsame := hcoherent n hn (hkey.eqTest_iff.mpr hagree)
    rw [hhash, h.contents.hashed n hn, Except.ok.injEq] at hsame
    have hbucket := (h.placed.mem_bucket hn).2
    rw [slot, ← hsame, hsplit, List.append_nil] at hbucket
    exact hbefore n hbucket hsame.symm hagree
  · refine ⟨hmem n ?_, hrest n hn⟩
    rw [hsplit]
    exact List.mem_append_right before (List.mem_of_mem_head? hn)

/-! ## The accesses -/

/-- **`htable_get` returns the value of the function exactly when the key is
coherent.** -/
theorem Represents.get (h : Represents heap t m) (hkey : IsKey heap key) :
    ∃ v t', htableGet heap t key = .ok (v, t') ∧ Same heap t t' m ∧
      (v = m key ↔ Coherent heap t key) := by
  obtain ⟨t', ht', hsame⟩ := h.checkRehash
  obtain ⟨hash, before, rest, hfound⟩ := hsame.represents.found hkey
  have hcontents := hsame.represents.contents
  rw [← hsame.coherent]
  cases rest with
  | nil =>
      refine ⟨none, t', ?_, hsame, ?_⟩
      · simp only [htableGet, ht', hfound.hash_eq, hfound.search_eq, Bind.bind, Except.bind]
      · refine ⟨fun hnone n hn htest => ?_, fun hcoherent => ?_⟩
        · obtain ⟨v, hv⟩ := Option.ne_none_iff_exists'.mp (hcontents.values n hn).1
          have := (hcontents.maps key hkey v).mpr ⟨n, hn, hkey.eqTest_iff.mp htest, hv⟩
          simp [← hnone] at this
        · by_contra hne
          obtain ⟨v, hv⟩ := Option.ne_none_iff_exists'.mp (Ne.symm hne)
          obtain ⟨n, hn, hagree, -⟩ := (hcontents.maps key hkey v).mp hv
          exact hfound.absent rfl hcoherent n hn hagree
  | cons n after =>
      obtain ⟨hn, hhash, hagree⟩ := hfound.present n (by simp)
      refine ⟨n.value, t', ?_, hsame, ?_⟩
      · simp only [htableGet, ht', hfound.hash_eq, hfound.search_eq, Bind.bind, Except.bind]
      · obtain ⟨v, hv⟩ := Option.ne_none_iff_exists'.mp (hcontents.values n hn).1
        have hm := (hcontents.maps key hkey v).mpr ⟨n, hn, hagree, hv⟩
        refine iff_of_true (hv.trans hm.symm) fun n' hn' htest => ?_
        -- the only entry that is equal to the key is the one that was found
        have hunique : n' = n := by
          by_contra hne
          have : Std.Symm fun n n' : Hashelt ν => ¬Agree heap n.key n'.key :=
            ⟨fun _ _ hnot hagree => hnot hagree.symm⟩
          refine hcontents.distinct.forall hn' hn hne ?_
          exact (hkey.eqTest_iff.mp htest).symm.trans hagree
        rw [hunique, hfound.hash_eq, hcontents.hashed n hn, hhash]

/-- The entry for the key is taken out of its bucket. -/
theorem Represents.remove (h : Represents heap t m) {hash : BitVec 64}
    {before after : List (Hashelt ν)} (hfound : Found heap t key hash before (n :: after)) :
    (entries t.size t.table).Perm (n :: entries t.size
        (Function.update t.table (hash.toNat % t.size) (before ++ after))) ∧
      Contents heap (entries t.size
        (Function.update t.table (hash.toNat % t.size) (before ++ after)))
        (assign heap m key none) := by
  have hperm := entries_remove (h.index_lt hash) hfound.bucket
  exact ⟨hperm, (h.contents.perm hperm).remove (hfound.present n (by simp)).2.2⟩

/-- **`htable_set` assigns**, if the key is coherent. -/
theorem Represents.set (h : Represents heap t m) (hkey : IsKey heap key)
    (hcoherent : Coherent heap t key) (value : Option ν) :
    ∃ t', htableSet heap t key value = .ok t' ∧ Represents heap t' (assign heap m key value) := by
  obtain ⟨t', ht', hsame⟩ := h.checkRehash
  have ht := hsame.represents
  obtain ⟨hash, before, rest, hfound⟩ := ht.found hkey
  have hlt := ht.index_lt hash
  have hassign : assign heap m key (alive heap value) = assign heap m key value := by
    funext k
    simp only [assign, alive_alive]
  have hbucket : ∀ n ∈ t'.table (hash.toNat % t'.size), slot t'.size n = hash.toNat % t'.size :=
    ht.placed _ hlt
  rw [hfound.bucket] at hbucket
  simp only [htableSet, isZombie_eq_false hkey.alive, ht', hfound.hash_eq, hfound.search_eq,
    Bind.bind, Except.bind, Bool.false_eq_true, if_false]
  cases hvalue : alive heap value with
  | none =>
      rw [← hassign, hvalue]
      cases rest with
      | nil =>
          have hnone := hfound.absent rfl (hsame.coherent.mpr hcoherent)
          exact ⟨t', rfl, ht.two_le, ht.placed, ht.count, ht.contents.absent hnone⟩
      | cons n after =>
          obtain ⟨hperm, hcontents⟩ := ht.remove hfound
          refine ⟨_, rfl, ht.two_le, ht.placed.update fun n' hn' => ?_, ?_, hcontents⟩
          · refine hbucket n' ?_
            rcases List.mem_append.mp hn' with hn' | hn'
            exacts [List.mem_append_left _ hn', List.mem_append_right _ (List.mem_cons_of_mem n hn')]
          · have := hperm.length_eq
            simp only [ht.count, Htable.elts, List.length_cons] at this ⊢
            omega
  | some v =>
      have hsome : alive heap value ≠ none := by simp [hvalue]
      cases rest with
      | nil =>
          have hnone := hfound.absent rfl (hsame.coherent.mpr hcoherent)
          obtain ⟨t1, ht1, hgrown, hcount⟩ := ht.grow
            (show 3 * t'.nelems + 1 ≤ 2 * t'.size + (3 * t'.nelems + 1) by omega) (by omega)
          have h1 := hgrown.represents
          have hslot : slot t1.size (⟨hash, key, some v⟩ : Hashelt ν) < t1.size :=
            slot_lt h1.two_le _
          have hperm := entries_push t1.table hslot
          simp only [ht1]
          refine ⟨_, rfl, h1.two_le, h1.placed.push hslot, ?_, ?_⟩
          · have := hperm.length_eq
            simp only [List.length_cons] at this
            rw [Htable.elts, this]
            exact congrArg (· + 1) h1.count
          · have hnone1 : ∀ n ∈ t1.elts, ¬Agree heap key n.key :=
              fun n hn => hnone n (hgrown.elts.mem_iff.mp hn)
            refine Contents.perm ?_ hperm.symm
            rw [← assign_assign none]
            exact (h1.contents.absent hnone1).add hnone1 hkey (AgreeAt.refl) hfound.hash_eq
              hvalue.symm hsome
      | cons n after =>
          obtain ⟨hmem, hhash, hagree⟩ := hfound.present n (by simp)
          obtain ⟨hperm, hcontents⟩ := ht.remove hfound
          have hinsert := entries_insert t'.table hlt { n with value := some v } before after
          refine ⟨_, rfl, ht.two_le, ht.placed.update fun n' hn' => ?_, ?_, ?_⟩
          · rcases List.mem_append.mp hn' with hn' | hn'
            · exact hbucket n' (List.mem_append_left _ hn')
            · rcases List.mem_cons.mp hn' with rfl | hn'
              · exact hbucket n (List.mem_append_right _ (by simp))
              · exact hbucket n' (List.mem_append_right _ (List.mem_cons_of_mem n hn'))
          · have h1 := hperm.length_eq
            have h2 := hinsert.length_eq
            simp only [List.length_cons] at h1 h2
            rw [ht.count, Htable.elts, Htable.elts, h1, h2]
          · refine Contents.perm ?_ hinsert.symm
            rw [← assign_assign none]
            have hdistinct := (List.pairwise_cons.mp (ht.contents.perm hperm).distinct).1
            refine hcontents.add (fun n' hn' hkn => ?_) (ht.contents.keys n hmem) hagree
              (ht.contents.hashed n hmem) hvalue.symm hsome
            exact hdistinct n' hn' (hagree.symm.trans hkn)

/-! ## Runs -/

/-- The function after a call. -/
def record (heap : ν → Object (Option ν)) (m : Option ν → Option ν) :
    Action ν → Option ν → Option ν
  | .set key value => assign heap m key value
  | .get _ | .rehash => m

/-- The value of the last `htable_set` for a key, from the history of the
calls. -/
def lookup (heap : ν → Object (Option ν)) (acts : List (Action ν)) : Option ν → Option ν :=
  acts.foldl (record heap) fun _ => none

/-- The keys of the calls are keys. -/
def Action.KeyOk (heap : ν → Object (Option ν)) : Action ν → Prop
  | .set key _ | .get key => IsKey heap key
  | .rehash => True

/-- The key of an assignment is coherent. -/
def Action.Ok (heap : ν → Object (Option ν)) (t : Htable ν) : Action ν → Prop
  | .set key _ => Coherent heap t key
  | .get _ | .rehash => True

theorem represents_new (nelems : ℤ) : Represents heap (newHtable nelems) fun _ => none := by
  have hempty : (newHtable nelems : Htable ν).elts = [] := entries_empty _
  refine ⟨?_, fun i _ n hn => by simp [newHtable] at hn, by rw [hempty]; rfl, ?_⟩
  · simp only [newHtable]
    split <;> omega
  · rw [hempty]
    exact ⟨by simp, by simp, by simp, List.Pairwise.nil, by simp⟩

/-- A call makes of a table that stands for a function one that stands for the
function after the call. -/
theorem Represents.step (h : Represents heap t m) {a : Action ν} (hkey : a.KeyOk heap)
    (hok : a.Ok heap t) : ∃ t', step heap t a = some t' ∧ Represents heap t' (record heap m a) := by
  cases a with
  | set key value =>
      obtain ⟨t', ht', hrepresents⟩ := h.set hkey hok value
      exact ⟨t', by simp [Table.step, ht', Except.toOption], hrepresents⟩
  | get key =>
      obtain ⟨v, t', ht', hsame, -⟩ := h.get hkey
      exact ⟨t', by simp [Table.step, ht', Except.toOption], hsame.represents⟩
  | rehash => exact ⟨_, rfl, h.two_le, h.placed, h.count, h.contents⟩

theorem Represents.run (h : Represents heap t m) {acts : List (Action ν)}
    (hkeys : ∀ a ∈ acts, a.KeyOk heap) (hok : Along (Table.step heap) (fun t a => a.Ok heap t) t acts) :
    ∃ t', Runs.run (Table.step heap) t acts = some t' ∧ Represents heap t' (acts.foldl (record heap) m) := by
  induction acts generalizing t m with
  | nil => exact ⟨t, rfl, h⟩
  | cons a acts ih =>
      obtain ⟨t1, ht1, h1⟩ := h.step (hkeys a (by simp)) hok.1
      have hrest : Along (Table.step heap) (fun t a => a.Ok heap t) t1 acts := by
        have := hok.2
        rwa [ht1] at this
      obtain ⟨t', ht', h'⟩ := ih h1 (fun b hb => hkeys b (by simp [hb])) hrest
      exact ⟨t', run_cons.mpr ⟨t1, ht1, ht'⟩, h'⟩

/-! ## The result -/

/-- Keys up to `eq_test`. -/
def keySetoid (heap : ν → Object (Option ν)) : Setoid (Option ν) where
  r := Agree heap
  iseqv := agree_equivalence heap

/-- The classes of the keys that have a value. -/
def classes (heap : ν → Object (Option ν)) (m : Option ν → Option ν) :
    Set (Quotient (keySetoid heap)) :=
  {c | ∃ k, IsKey heap k ∧ c = Quotient.mk (keySetoid heap) k ∧ m k ≠ none}

theorem Contents.ncard_classes (h : Contents heap es m) : (classes heap m).ncard = es.length := by
  classical
  let reps := es.map fun n => Quotient.mk (keySetoid heap) n.key
  have hnodup : reps.Nodup := by
    rw [List.Nodup, List.pairwise_map]
    exact h.distinct.imp fun hne heq => hne (Quotient.exact heq)
  have hclasses : classes heap m = ↑reps.toFinset := by
    ext c
    simp only [classes, Set.mem_ofPred_eq, List.coe_toFinset, reps, List.mem_map]
    refine ⟨?_, ?_⟩
    · rintro ⟨k, hk, rfl, hne⟩
      obtain ⟨v, hv⟩ := Option.ne_none_iff_exists'.mp hne
      obtain ⟨n, hn, hagree, -⟩ := (h.maps k hk v).mp hv
      exact ⟨n, hn, Quotient.sound (s := keySetoid heap) hagree.symm⟩
    · rintro ⟨n, hn, rfl⟩
      obtain ⟨v, hv⟩ := Option.ne_none_iff_exists'.mp (h.values n hn).1
      have hm := (h.maps n.key (h.keys n hn) v).mpr ⟨n, hn, AgreeAt.refl, hv⟩
      exact ⟨n.key, h.keys n hn, rfl, by simp [hm]⟩
  rw [hclasses, Set.ncard_coe_finset, List.toFinset_card_of_nodup hnodup, List.length_map]

/-- Equal keys have the same hash value, unless they hold zeros of different
signs at the same place. -/
theorem coherent_or_zeros (h : Represents heap t m) (hkey : IsKey heap key) :
    Coherent heap t key ∨ ∃ n ∈ t.elts, Zeros heap key n.key := by
  by_cases hzeros : ∃ n ∈ t.elts, Zeros heap key n.key
  · exact Or.inr hzeros
  · refine Or.inl fun n hn htest => ?_
    obtain ⟨tree, htree⟩ := id hkey
    obtain ⟨tree', htree'⟩ := h.contents.keys n hn
    rcases htree.eq_or_zeros htree' (hkey.eqTest_iff.mp htest) with rfl | hz
    · rw [hashValue_ok htree, hashValue_ok htree']
    · exact absurd ⟨n, hn, hz⟩ hzeros

/-- **In a run whose assignments have coherent keys, the table is the finite map
of its history**: the number of elements is the number of classes, and the keys
for which `htable_get` returns the value of the last assignment are exactly the
coherent ones. -/
theorem htable_finite_map (heap : ν → Object (Option ν)) (nelems : ℤ) (acts : List (Action ν))
    (hkeys : ∀ a ∈ acts, a.KeyOk heap)
    (hok : Along (step heap) (fun t a => a.Ok heap t) (newHtable nelems) acts) :
    ∃ t, run (step heap) (newHtable nelems) acts = some t ∧
      t.nelems = (classes heap (lookup heap acts)).ncard ∧
      ∀ key, IsKey heap key → ∃ v t', htableGet heap t key = .ok (v, t') ∧
        (v = lookup heap acts key ↔ Coherent heap t key) := by
  obtain ⟨t, ht, h⟩ := (represents_new nelems).run hkeys hok
  refine ⟨t, ht, ?_, fun key hkey => ?_⟩
  · rw [h.count, lookup, h.contents.ncard_classes]
  · obtain ⟨v, t', hget, -, hiff⟩ := h.get hkey
    exact ⟨v, t', hget, hiff⟩

end Represents

/-- Three numbers. -/
inductive Signed
  | plus
  | minus
  | one
deriving DecidableEq

instance : Fintype Signed where
  elems := {.plus, .minus, .one}
  complete x := by cases x <;> decide

/-- The numbers `0`, `-0` and `1`. -/
def signed : Signed → Object (Option Signed)
  | .plus => .number 0#64
  | .minus => .number 0x8000000000000000#64
  | .one => .number 0x3ff0000000000000#64

theorem htable_finite_map_one : ∃ t, run (step signed) (newHtable 100)
      [.set (some .one) (some .plus), .rehash, .get (some .one)] = some t ∧
    t.nelems = (classes signed (lookup signed
      [.set (some .one) (some .plus), .rehash, .get (some .one)])).ncard ∧
    ∀ key, IsKey signed key → ∃ v t', htableGet signed t key = .ok (v, t') ∧
      (v = lookup signed [.set (some .one) (some .plus), .rehash, .get (some .one)] key ↔
        Coherent signed t key) := by
  have hone : IsKey signed (some .one) := ⟨_, .number rfl⟩
  refine htable_finite_map signed 100 _ (by simp [Action.KeyOk, hone]) ⟨fun n hn => ?_, ?_⟩
  · have hempty : (newHtable 100 : Htable Signed).elts = [] := entries_empty _
    simp [hempty] at hn
  · cases step signed (newHtable 100) (.set (some .one) (some .plus)) with
    | none => trivial
    | some t => exact along_of_forall (by simp [Action.Ok]) t

/-- A value is stored for `0`; `-0` is equal to it, and has no value. -/
theorem htableGet_signed : ∃ t, run (step signed) (newHtable 0) [.set (some .plus) (some .one)] =
      some t ∧ IsKey signed (some .plus) ∧ IsKey signed (some .minus) ∧
    eqTest signed (some .minus) (some .plus) = .ok true ∧
    lookup signed [.set (some .plus) (some .one)] (some .minus) = some .one ∧
    htableGet signed t (some .minus) = .ok (none, t) :=
  ⟨_, rfl, ⟨_, .number rfl⟩, ⟨_, .number rfl⟩, by decide, by decide, rfl⟩

end Lush.Table
