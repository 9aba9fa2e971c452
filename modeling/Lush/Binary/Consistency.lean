import Lush.Binary.RoundTrip

/-!
# Definitions and references in a file

The relocations are counted by the first sweep and defined by the second.  The
two agree on every object except the zombies: a zombie met through several
references gets a relocation, and is written as `TOK_NIL` every time, without a
definition.  So a file is consistent, and accepted by `bread`, exactly when no
zombie is shared (`consistent_iff`).
-/

namespace Lush.Binary

open Traversal

variable {ν : Type} [LinearOrder ν]

/-! ## Counting definitions -/

/-- The token is a definition. -/
def Token.isDefn : Token → Bool
  | .defn _ => true
  | _ => false

/-- What a file has to be: as many definitions as announced, one for each
index, and one for every reference. -/
structure Image.Consistent (image : Image) : Prop where
  total : image.tokens.countP Token.isDefn = image.relocn
  once : ∀ k < image.relocn, image.tokens.count (.defn k) = 1
  defined : ∀ k, .ref k ∈ image.tokens → k < image.relocn ∧ .defn k ∈ image.tokens

section Emission

variable {heap : ν → Object (Option ν)} {ks : List ν} {c c' : ν → ℕ} {p : Option ν}
  {ts : List Token}

/-- The definitions in an announcement. -/
theorem count_announce {a b : ν} (hb : b ∈ ks) :
    (announce ks a).count (.defn (ks.idxOf b)) = if b = a then 1 else 0 := by
  by_cases ha : a ∈ ks
  · rw [announce, if_pos ha, List.count_singleton]
    by_cases hab : b = a
    · simp [hab]
    · have hidx : ks.idxOf a ≠ ks.idxOf b := fun h => hab ((List.idxOf_inj hb).mp h.symm)
      simp [hab, hidx]
  · have hab : b ≠ a := fun h => ha (h ▸ hb)
    simp [announce, ha, hab]

/-- An emission defines an object that it visits first, unless this is a zombie,
and defines it once. -/
theorem Emits.count_defn (h : Emits heap ks c p ts c') {b : ν} (hb : b ∈ ks) :
    ts.count (.defn (ks.idxOf b)) = if (c b = 0 ∧ c' b ≠ 0) ∧ heap b ≠ .zombie then 1 else 0 := by
  induction h with
  | null => simp
  | @zombie c a hz =>
      have hne : heap b ≠ .zombie → b ≠ a := fun hzb hba => hzb (hba ▸ hz)
      by_cases hzb : heap b = .zombie
      · simp [hzb]
      · simp [hne hzb]
  | @ref c a hz hc ha =>
      by_cases hba : b = a
      · subst hba
        simp [hc]
      · simp [hba]
  | @leaf c a t hc ht =>
      have hz : heap a ≠ .zombie := fun hz => by simp [hz, leafToken] at ht
      have ht' : t ≠ .defn (ks.idxOf b) := by
        rintro rfl
        cases ho : heap a <;> simp [ho, leafToken] at ht
      rw [List.count_append, count_announce hb, List.count_singleton]
      by_cases hba : b = a
      · subst hba
        simp [hc, hz, ht']
      · simp [hba, ht']
  | @cons c a car cdr ts us c1 c2 hc ha h1 h2 ih1 ih2 =>
      have hle1 := h1.le b
      have hle2 := h2.le b
      rw [List.count_append, count_announce hb, List.count_cons_of_ne (by simp),
        List.count_append, ih1, ih2]
      by_cases hba : b = a
      · subst hba
        rw [bump_self] at hle1
        have h1' : c1 b ≠ 0 := by omega
        have h2' : c2 b ≠ 0 := by omega
        simp [hc, ha, h1', h2']
      · rw [bump_of_ne _ hba] at hle1 ⊢
        by_cases hz : heap b = .zombie
        · simp [hz, hba]
        · by_cases hcb : c b = 0 <;> by_cases hc1 : c1 b = 0 <;> by_cases hc2 : c2 b = 0 <;>
            simp [hcb, hc1, hc2, hz, hba] <;> omega

/-- The indices in an emission are those of objects that were visited. -/
theorem Emits.index (h : Emits heap ks c p ts c') :
    (∀ k, .defn k ∈ ts → ∃ a ∈ ks, k = ks.idxOf a) ∧
      ∀ k, .ref k ∈ ts → ∃ a ∈ ks, k = ks.idxOf a ∧ c' a ≠ 0 ∧ heap a ≠ .zombie := by
  have hannounce : ∀ {a : ν} {t}, t ∈ announce ks a → a ∈ ks ∧ t = .defn (ks.idxOf a) := by
    intro a t ht
    unfold announce at ht
    split at ht <;> simp_all
  induction h with
  | null => simp
  | zombie hz => simp
  | @ref c a hz hc ha =>
      refine ⟨by simp, fun k hk => ⟨a, ha, ?_, by simp, hz⟩⟩
      simpa using hk
  | @leaf c a t hc ht =>
      have hleaf : ∀ k, t ≠ .defn k ∧ t ≠ .ref k := by
        intro k
        cases ho : heap a <;> simp [ho, leafToken] at ht <;> simp [← ht]
      refine ⟨fun k hk => ?_, fun k hk => ?_⟩
      · rcases List.mem_append.mp hk with hk | hk
        · obtain ⟨ha, hk⟩ := hannounce hk
          exact ⟨a, ha, Token.defn.inj hk⟩
        · exact absurd (List.mem_singleton.mp hk).symm (hleaf k).1
      · rcases List.mem_append.mp hk with hk | hk
        · exact absurd (hannounce hk).2 (by simp)
        · exact absurd (List.mem_singleton.mp hk).symm (hleaf k).2
  | @cons c a car cdr ts us c1 c2 hc ha h1 h2 ih1 ih2 =>
      have hmono : ∀ b, c1 b ≠ 0 → c2 b ≠ 0 := fun b hb h0 =>
        hb (Nat.le_zero.mp (h0 ▸ h2.le b))
      have hsplit : ∀ {t}, t ∈ announce ks a ++ .cons :: (ts ++ us) →
          (a ∈ ks ∧ t = .defn (ks.idxOf a)) ∨ t = .cons ∨ t ∈ ts ∨ t ∈ us := by
        intro t ht
        simp only [List.mem_append, List.mem_cons] at ht
        exact ht.imp_left hannounce
      refine ⟨fun k hk => ?_, fun k hk => ?_⟩
      · rcases hsplit hk with ⟨ha, hk⟩ | hk | hk | hk
        · exact ⟨a, ha, Token.defn.inj hk⟩
        · cases hk
        · exact ih1.1 k hk
        · exact ih2.1 k hk
      · rcases hsplit hk with ⟨_, hk⟩ | hk | hk | hk
        · cases hk
        · cases hk
        · obtain ⟨b, hb, hkb, hcb, hzb⟩ := ih1.2 k hk
          exact ⟨b, hb, hkb, hmono b hcb, hzb⟩
        · exact ih2.2 k hk

end Emission

/-- The definitions, counted index by index. -/
theorem countP_isDefn {n : ℕ} {ts : List Token} (h : ∀ k, .defn k ∈ ts → k < n) :
    ts.countP Token.isDefn = ∑ k ∈ Finset.range n, ts.count (.defn k) := by
  induction ts with
  | nil => simp
  | cons t ts ih =>
      have ih' := ih fun k hk => h k (List.mem_cons_of_mem _ hk)
      simp only [List.countP_cons, List.count_cons, Finset.sum_add_distrib, ih']
      congr 1
      cases t with
      | defn k =>
          have hk : k ∈ Finset.range n := Finset.mem_range.mpr (h k (by simp))
          rw [Finset.sum_eq_single_of_mem k hk fun x _ hx => by simp [Ne.symm hx]]
          simp [Token.isDefn]
      | _ => simp [Token.isDefn]

/-! ## Consistent files -/

section Consistent

variable [Fintype ν] {heap : ν → Object (Option ν)} {p : Option ν} {image : Image}
  {visits : ν → ℕ} {ks : List ν}

/-- The number of definitions of an index. -/
theorem Written.count_defn (h : Written heap p image visits ks) {k : ℕ} (hk : k < ks.length) :
    image.tokens.count (.defn k) = if heap ks[k] = .zombie then 0 else 1 := by
  have hmem : ks[k] ∈ ks := List.getElem_mem hk
  have hvisits : visits ks[k] ≠ 0 := by
    have := (h.mem_iff _).mp hmem
    omega
  have hcount := h.emits.count_defn hmem
  rw [h.nodup.idxOf_getElem k hk] at hcount
  rw [hcount]
  by_cases hz : heap ks[k] = .zombie <;> simp [hz, hvisits]

/-- **A file is consistent when no zombie is shared, and only then.** -/
theorem Written.consistent_iff (h : Written heap p image visits ks) :
    image.Consistent ↔ ∀ a ∈ ks, heap a ≠ .zombie := by
  refine ⟨fun hconsistent a ha hz => ?_, fun hz => ⟨?_, fun k hk => ?_, fun k hk => ?_⟩⟩
  · have hlt := List.idxOf_lt_length_of_mem ha
    have honce := hconsistent.once (ks.idxOf a) (h.relocn ▸ hlt)
    rw [h.count_defn hlt, List.getElem_idxOf, if_pos hz] at honce
    exact absurd honce (by simp)
  · have hindex : ∀ k, .defn k ∈ image.tokens → k < ks.length := by
      intro k hk
      obtain ⟨a, ha, rfl⟩ := h.emits.index.1 k hk
      exact List.idxOf_lt_length_of_mem ha
    calc image.tokens.countP Token.isDefn
        = ∑ k ∈ Finset.range ks.length, image.tokens.count (.defn k) := countP_isDefn hindex
      _ = ∑ k ∈ Finset.range ks.length, 1 := by
          refine Finset.sum_congr rfl fun k hk => ?_
          rw [h.count_defn (Finset.mem_range.mp hk), if_neg (hz _ (List.getElem_mem _))]
      _ = image.relocn := by simp [h.relocn]
  · rw [h.relocn] at hk
    rw [h.count_defn hk, if_neg (hz _ (List.getElem_mem _))]
  · obtain ⟨a, ha, rfl, -, -⟩ := h.emits.index.2 k hk
    have hlt := List.idxOf_lt_length_of_mem ha
    refine ⟨h.relocn ▸ hlt, List.count_pos_iff.mp ?_⟩
    rw [h.count_defn hlt, if_neg (hz _ (List.getElem_mem _))]
    exact Nat.one_pos

/-- **Files are accepted when no zombie is shared.**  Every graph is written.
The file is consistent if and only if no zombie is met through several
references; and within the limits of the reader, `bread` accepts the file if and
only if this holds and no more than ten million objects are shared. -/
theorem bwrite_accepted (swapflag : Bool) (heap : ν → Object (Option ν)) (p : Option ν) :
    ∃ image w, writeImage heap p = .ok (image, w) ∧
      (image.Consistent ↔ ∀ a ∈ shared heap p, heap a ≠ .zombie) ∧
      ((∀ a, Reachable (refs heap) [p] a → Readable (heap a)) →
        (shared heap p).card < 16777216 →
        ((∀ cells rest, ∃ r, bread swapflag cells 0 (image.bytes swapflag ++ rest) = .ok r) ↔
          (∀ a ∈ shared heap p, heap a ≠ .zombie) ∧ (shared heap p).card ≤ 10000000)) := by
  obtain ⟨image, w, visits, ks, himage, -, hwritten⟩ := writeImage_ok heap p
  have hzombie : (∀ a ∈ ks, heap a ≠ .zombie) ↔ ∀ a ∈ shared heap p, heap a ≠ .zombie :=
    forall_congr' fun a => imp_congr_left (hwritten.mem_shared a)
  refine ⟨image, w, himage, hwritten.consistent_iff.trans hzombie, fun hreadable hcard => ?_⟩
  rw [← hzombie]
  rw [← hwritten.length_eq] at hcard ⊢
  by_cases hks : ks.length ≤ 10000000
  · have hbread := bread_written swapflag hwritten hreadable hks
    refine ⟨fun h => ⟨fun a ha hz => ?_, hks⟩, fun h cells rest => ?_⟩
    · obtain ⟨r, hr⟩ := h [] []
      obtain ⟨g, r', -, -, -, -, -, hr'⟩ := hbread [] []
      rw [if_pos ⟨a, ha, hz⟩, hr] at hr'
      cases hr'
    · obtain ⟨g, r, -, -, -, -, -, hr⟩ := hbread cells rest
      exact ⟨r, hr.trans (if_neg fun ⟨a, ha, hz⟩ => h.1 a ha hz)⟩
  · refine ⟨fun h => ?_, fun h => absurd h.2 hks⟩
    -- the header announces too many relocations
    obtain ⟨r, hr⟩ := h [] []
    have hlt : image.relocn < 16777216 := hwritten.relocn ▸ hcard
    have hgt : image.relocn > 10000000 := hwritten.relocn ▸ Nat.lt_of_not_le hks
    simp [bread, Image.bytes, hlt, hgt, Bind.bind, Except.bind] at hr

/-- A cell whose fields hold the same zombie. -/
def zombieTwice : Bool → Object (Option Bool)
  | false => .cons (some true) (some true)
  | true => .zombie

theorem bread_zombieTwice :
    ∃ image w, writeImage zombieTwice (some false) = .ok (image, w) ∧ ¬image.Consistent ∧
      bread true [] 0 (image.bytes true) =
        .error (.error "Corrupted binary file (unresolved relocs)") := by
  refine ⟨⟨1, [.cons, .nil, .nil]⟩, _, rfl, fun h => absurd h.total (by decide), ?_⟩
  simp [bread, Image.bytes, Token.bytes, binaryStart, localBread, Reader.put, Reader.alloc,
    setField, Bind.bind, Except.bind]

end Consistent

end Lush.Binary
