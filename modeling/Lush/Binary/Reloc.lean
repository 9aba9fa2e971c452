import Lush.Binary.Write

/-!
# The relocation table

The table is sorted by address (`Sorted`).  Under this invariant `insert_reloc`
adds an address that is not there yet and never reports it requested twice
(`insertReloc_ok`), and the binary search of `search_reloc` finds the rank of
every address of the table (`searchReloc_eq`).
-/

namespace Lush.Binary

variable {ν : Type}

/-- The addresses of a table, in order: `relocp`. -/
def keys (table : RelocTable ν) : List ν :=
  table.map Prod.fst

@[simp] theorem length_keys (table : RelocTable ν) : (keys table).length = table.length := by
  simp [keys]

@[simp] theorem keys_modify (table : RelocTable ν) (k : ℕ) (f : RelocFlag) :
    keys (table.modify k fun e => (e.1, f)) = keys table := by
  apply List.ext_getElem?
  intro i
  simp only [keys, List.getElem?_map, List.getElem?_modify]
  split <;> cases table[i]? <;> rfl

variable [LinearOrder ν]

/-- The addresses of a table are strictly increasing. -/
def Sorted (table : RelocTable ν) : Prop :=
  (keys table).Pairwise (· < ·)

theorem Sorted.nodup {table : RelocTable ν} (h : Sorted table) : (keys table).Nodup :=
  h.imp fun hlt => ne_of_lt hlt

/-- The entries that stay below in `insert_reloc` are the smaller ones. -/
theorem lt_of_mem_under {table : RelocTable ν} (hsorted : Sorted table) {p : ν}
    {e : ν × RelocFlag} (he : e ∈ table.rdropWhile fun e => p ≤ e.1) : e.1 < p := by
  have hne : (table.rdropWhile fun e => p ≤ e.1) ≠ [] := List.ne_nil_of_mem he
  have hlast : ((table.rdropWhile fun e => p ≤ e.1).getLast hne).1 < p := by
    simpa using List.rdropWhile_last_not (fun e : ν × RelocFlag => decide (p ≤ e.1)) table hne
  have hpair : (table.rdropWhile fun e => p ≤ e.1).Pairwise fun e e' => e.1 ≤ e'.1 :=
    ((List.pairwise_map.mp hsorted).imp le_of_lt).sublist
      (List.rdropWhile_prefix _ (l := table)).sublist
  exact (hpair.rel_getLast_of_rel_getLast_getLast he le_rfl).trans_lt hlast

/-- The entries that slide up in `insert_reloc` are not below. -/
theorem le_of_mem_above {table : RelocTable ν} {p : ν} {e : ν × RelocFlag}
    (he : e ∈ table.rtakeWhile fun e => p ≤ e.1) : p ≤ e.1 := by
  simpa using List.mem_rtakeWhile_imp he

theorem under_append_above (table : RelocTable ν) (p : ν) :
    (table.rdropWhile fun e => p ≤ e.1) ++ (table.rtakeWhile fun e => p ≤ e.1) = table := by
  rw [List.rdropWhile, List.rtakeWhile, ← List.reverse_append, List.takeWhile_append_dropWhile,
    List.reverse_reverse]

/-- **`insert_reloc` enters an address that is not in the table.** -/
theorem insertReloc_ok {table : RelocTable ν} (hsorted : Sorted table) {p : ν}
    (hp : p ∉ keys table) :
    ∃ table', insertReloc p table = .ok table' ∧ Sorted table' ∧
      ∀ e, e ∈ table' ↔ e = (p, .empty) ∨ e ∈ table := by
  set under := table.rdropWhile fun e => p ≤ e.1 with hunder
  set above := table.rtakeWhile fun e => p ≤ e.1 with habove
  have hsplit : under ++ above = table := under_append_above table p
  have hmem : ∀ e ∈ above, p < e.1 := by
    intro e he
    refine lt_of_le_of_ne (le_of_mem_above he) fun heq => hp ?_
    rw [keys, ← hsplit, heq]
    exact List.mem_map_of_mem (List.mem_append_right _ he)
  have hlt : ∀ e ∈ under, e.1 < p := fun e he => lt_of_mem_under hsorted he
  have hhead : above.head?.map Prod.fst ≠ some p := by
    intro h
    obtain ⟨e, he, heq⟩ := Option.map_eq_some_iff.mp h
    exact (hmem e (List.mem_of_mem_head? he)).ne' heq
  refine ⟨under ++ (p, .empty) :: above, if_neg hhead, ?_, fun e => ?_⟩
  · rw [← hsplit, Sorted, keys, List.map_append, List.pairwise_append] at hsorted
    obtain ⟨h1, h2, h3⟩ := hsorted
    rw [Sorted, keys, List.map_append, List.map_cons, List.pairwise_append, List.pairwise_cons]
    refine ⟨h1, ⟨fun a ha => ?_, h2⟩, fun a ha b hb => ?_⟩
    · obtain ⟨e, he, rfl⟩ := List.mem_map.mp ha
      exact hmem e he
    · obtain ⟨e, he, rfl⟩ := List.mem_map.mp ha
      rcases List.mem_cons.mp hb with rfl | hb
      · exact hlt e he
      · exact h3 _ ha b hb
  · rw [← hsplit]
    simp only [List.mem_append, List.mem_cons]
    tauto

/-- The rounds of the binary search close in on the rank of the address. -/
theorem searchLoop_eq {table : RelocTable ν} (hsorted : Sorted table) {i : ℕ}
    (hi : i < table.length) : ∀ rounds lo hi', lo ≤ i → i < hi' → hi' ≤ table.length →
      hi' - lo < rounds → searchLoop table (table[i]).1 rounds lo hi' = .ok i := by
  have hlt : ∀ j k (hj : j < table.length) (hk : k < table.length), j < k →
      (table[j]).1 < (table[k]).1 :=
    List.pairwise_iff_getElem.mp (List.pairwise_map.mp hsorted)
  intro rounds
  induction rounds with
  | zero => intro lo hi' _ _ _ h; exact absurd h (Nat.not_lt_zero _)
  | succ rounds ih =>
      intro lo hi' hlo hhi hlen hrounds
      have hk : (lo + hi' - 1) / 2 < table.length := by omega
      rw [searchLoop, if_pos (by omega)]
      simp only [List.getElem?_eq_getElem hk]
      rcases lt_trichotomy ((lo + hi' - 1) / 2) i with hlow | heq | hhigh
      · rw [if_pos (hlt _ _ hk hi hlow)]
        exact ih _ _ hlow hhi hlen (by omega)
      · subst heq
        rw [if_neg (lt_irrefl _), if_neg (lt_irrefl _)]
      · rw [if_neg (hlt _ _ hi hk hhigh).not_gt, if_pos (hlt _ _ hi hk hhigh)]
        exact ih _ _ hlo hhigh (by omega) (by omega)

/-- **`search_reloc` finds the rank of every address of the table.** -/
theorem searchReloc_eq {table : RelocTable ν} (hsorted : Sorted table) {p : ν}
    (hp : p ∈ keys table) : searchReloc table p = .ok ((keys table).idxOf p) := by
  have hi : (keys table).idxOf p < table.length := by
    rw [← length_keys]
    exact List.idxOf_lt_length_of_mem hp
  have heq : (table[(keys table).idxOf p]).1 = p := by
    have hmap := List.getElem_map Prod.fst (h := List.idxOf_lt_length_of_mem hp)
    exact hmap.symm.trans (List.getElem_idxOf _)
  have := searchLoop_eq hsorted hi (table.length + 1) 0 table.length (Nat.zero_le _) hi le_rfl
    (by omega)
  rwa [heq] at this

end Lush.Binary
