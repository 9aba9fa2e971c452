import Lush.Csv.Interning

/-!
# The codes of a column

The strings of a column enter its pool one after the other (`encode`).  All of them get a
code if and only if the pool has room for the different strings of the column, and what
is read from the buffers is the strings if and only if, in addition, none of them has a
zero byte (`decodes_iff_fits`).
-/

namespace Lush.Csv

variable {maxUnique bufSize : ℕ} {texts pool : List Text} {t : Text} {k : ℕ}

/-- The pool and the codes of a column. -/
def encode (maxUnique bufSize : ℕ) (texts : List Text) : List Text × List (Option ℕ) :=
  texts.foldl (fun s t => ((enter maxUnique bufSize s.1 t).1,
    s.2 ++ [(enter maxUnique bufSize s.1 t).2])) ([], [])

/-- What is read from the buffers for a string: it ends at the first zero byte. -/
def readBack (t : Text) : Text := t.takeWhile (0 < ·)

/-- There is room for the strings, and none of them has a zero byte. -/
structure Fits (maxUnique bufSize : ℕ) (texts : List Text) : Prop where
  count : texts.toFinset.card ≤ maxUnique
  bytes : ∑ t ∈ texts.toFinset, (t.length + 1) ≤ bufSize
  clean : ∀ t ∈ texts, 0 ∉ t

/-- Every text has a code, and the code designates the text in the pool that is read. -/
def Decodes (maxUnique bufSize : ℕ) (texts : List Text) : Prop :=
  ∀ (i : ℕ) (t : Text), texts[i]? = some t → ∃ code : Option ℕ,
    (encode maxUnique bufSize texts).2[i]? = some code ∧
    ((encode maxUnique bufSize texts).1.map readBack)[code.getD 0]? = some t

theorem encode_append (maxUnique bufSize : ℕ) (texts : List Text) (t : Text) :
    encode maxUnique bufSize (texts ++ [t]) =
      ((enter maxUnique bufSize (encode maxUnique bufSize texts).1 t).1,
        (encode maxUnique bufSize texts).2 ++
          [(enter maxUnique bufSize (encode maxUnique bufSize texts).1 t).2]) := by
  rw [encode, List.foldl_append]
  rfl

@[simp] theorem length_encode (maxUnique bufSize : ℕ) (texts : List Text) :
    (encode maxUnique bufSize texts).2.length = texts.length := by
  induction texts using List.reverseRecOn with
  | nil => rfl
  | append_singleton texts t ih => rw [encode_append]; simp [ih]

/-! ## The pool -/

theorem enter_cases (maxUnique bufSize : ℕ) (pool : List Text) (t : Text) :
    (t ∈ pool ∧ enter maxUnique bufSize pool t = (pool, some (pool.idxOf t))) ∨
      (t ∉ pool ∧ pool.length < maxUnique ∧ (layout (pool ++ [t])).length ≤ bufSize ∧
        enter maxUnique bufSize pool t = (pool ++ [t], some pool.length)) ∨
      (t ∉ pool ∧ ¬(pool.length < maxUnique ∧ (layout (pool ++ [t])).length ≤ bufSize) ∧
        enter maxUnique bufSize pool t = (pool, none)) := by
  rw [enter]
  split_ifs with hmem hroom
  · exact .inl ⟨hmem, rfl⟩
  · exact .inr (.inl ⟨hmem, hroom.1, hroom.2, rfl⟩)
  · exact .inr (.inr ⟨hmem, hroom, rfl⟩)

/-- The strings that are in the pool of a column. -/
structure Pool (maxUnique bufSize : ℕ) (texts pool : List Text) : Prop where
  nodup : pool.Nodup
  subset : ∀ t ∈ pool, t ∈ texts
  length_le : pool.length ≤ maxUnique
  layout_le : (layout pool).length ≤ bufSize

theorem pool_encode (maxUnique bufSize : ℕ) (texts : List Text) :
    Pool maxUnique bufSize texts (encode maxUnique bufSize texts).1 := by
  induction texts using List.reverseRecOn with
  | nil => exact ⟨List.nodup_nil, by simp [encode], Nat.zero_le _, Nat.zero_le _⟩
  | append_singleton texts t ih =>
      rw [encode_append]
      have hold : ∀ r ∈ (encode maxUnique bufSize texts).1, r ∈ texts ++ [t] := fun r hr =>
        List.mem_append_left _ (ih.subset r hr)
      rcases enter_cases maxUnique bufSize (encode maxUnique bufSize texts).1 t with
        ⟨-, heq⟩ | ⟨hmem, hunique, hroom, heq⟩ | ⟨-, -, heq⟩
      · rw [heq]
        exact ⟨ih.nodup, hold, ih.length_le, ih.layout_le⟩
      · rw [heq]
        refine ⟨?_, ?_, ?_, hroom⟩
        · exact List.nodup_append.mpr ⟨ih.nodup, List.nodup_singleton t, fun a ha b hb heq =>
            hmem (List.mem_singleton.mp hb ▸ heq ▸ ha)⟩
        · intro r hr
          rcases List.mem_append.mp hr with hr | hr
          · exact hold r hr
          · exact List.mem_append_right _ hr
        · simp only [List.length_append, List.length_singleton]
          exact hunique
      · rw [heq]
        exact ⟨ih.nodup, hold, ih.length_le, ih.layout_le⟩

/-- The size of a pool is that of its different strings. -/
theorem layout_length (hnodup : pool.Nodup) :
    (layout pool).length = ∑ t ∈ pool.toFinset, (t.length + 1) := by
  rw [List.sum_toFinset _ hnodup, layout, List.length_flatMap]
  simp

/-- A pool of strings of the column has room when the strings of the column have. -/
theorem Fits.room (h : Fits maxUnique bufSize texts) (hnodup : pool.Nodup)
    (hsubset : ∀ t ∈ pool, t ∈ texts) :
    pool.length ≤ maxUnique ∧ (layout pool).length ≤ bufSize := by
  have hfinset : pool.toFinset ⊆ texts.toFinset := fun t ht =>
    List.mem_toFinset.mpr (hsubset t (List.mem_toFinset.mp ht))
  constructor
  · calc pool.length = pool.toFinset.card := (List.toFinset_card_of_nodup hnodup).symm
      _ ≤ texts.toFinset.card := Finset.card_le_card hfinset
      _ ≤ maxUnique := h.count
  · calc (layout pool).length = ∑ t ∈ pool.toFinset, (t.length + 1) := layout_length hnodup
      _ ≤ ∑ t ∈ texts.toFinset, (t.length + 1) := Finset.sum_le_sum_of_subset hfinset
      _ ≤ bufSize := h.bytes

/-- A new string of the column has room. -/
theorem Fits.enter (h : Fits maxUnique bufSize texts) (hpool : Pool maxUnique bufSize texts pool)
    (ht : t ∈ texts) (hnew : t ∉ pool) :
    pool.length < maxUnique ∧ (layout (pool ++ [t])).length ≤ bufSize := by
  have hnodup : (pool ++ [t]).Nodup :=
    List.nodup_append.mpr ⟨hpool.nodup, List.nodup_singleton t, fun a ha b hb heq =>
      hnew (List.mem_singleton.mp hb ▸ heq ▸ ha)⟩
  have hsubset : ∀ r ∈ pool ++ [t], r ∈ texts := by
    intro r hr
    rcases List.mem_append.mp hr with hr | hr
    · exact hpool.subset r hr
    · exact List.mem_singleton.mp hr ▸ ht
  obtain ⟨hlength, hlayout⟩ := h.room hnodup hsubset
  rw [List.length_append, List.length_singleton] at hlength
  exact ⟨hlength, hlayout⟩

/-! ## The codes -/

/-- Where all strings have room, every text has the code of its place in the pool. -/
theorem Fits.codes (h : Fits maxUnique bufSize texts) :
    ∀ (i : ℕ) (t : Text), texts[i]? = some t → ∃ k,
      (encode maxUnique bufSize texts).2[i]? = some (some k) ∧
      (encode maxUnique bufSize texts).1[k]? = some t := by
  have hprefix : ∀ ts : List Text, (∀ t ∈ ts, t ∈ texts) →
      ∀ (i : ℕ) (t : Text), ts[i]? = some t → ∃ k,
        (encode maxUnique bufSize ts).2[i]? = some (some k) ∧
        (encode maxUnique bufSize ts).1[k]? = some t := by
    intro ts
    induction ts using List.reverseRecOn with
    | nil => intro _ i t hi; simp at hi
    | append_singleton ts t ih =>
        intro hts i r hi
        have hrest : ∀ t ∈ ts, t ∈ texts := fun t ht => hts t (List.mem_append_left _ ht)
        have ht : t ∈ texts := hts t (by simp)
        have hpool := pool_encode maxUnique bufSize ts
        set s := encode maxUnique bufSize ts with hs
        have hpool' : Pool maxUnique bufSize texts s.1 :=
          ⟨hpool.nodup, fun r hr => hrest r (hpool.subset r hr), hpool.length_le, hpool.layout_le⟩
        have hlen : s.2.length = ts.length := length_encode ..
        rw [encode_append, ← hs]
        rcases Nat.lt_or_ge i ts.length with hlt | hge
        · rw [List.getElem?_append_left hlt] at hi
          obtain ⟨k, hk, hget⟩ := ih hrest i r hi
          refine ⟨k, by rw [List.getElem?_append_left (hlen ▸ hlt), hk], ?_⟩
          rcases enter_cases maxUnique bufSize s.1 t with ⟨-, heq⟩ | ⟨-, -, -, heq⟩ | ⟨-, -, heq⟩
          · rw [heq, hget]
          · rw [heq, List.getElem?_append_left (List.getElem?_eq_some_iff.mp hget).1, hget]
          · rw [heq, hget]
        · rw [List.getElem?_append_right hge] at hi
          obtain ⟨hi0, hr⟩ := List.getElem?_eq_some_iff.mp hi
          have hi' : i = s.2.length := by
            rw [List.length_singleton] at hi0
            omega
          obtain rfl : t = r := by simpa using hr
          rw [hi', List.getElem?_concat_length]
          rcases enter_cases maxUnique bufSize s.1 t with
            ⟨hmem, heq⟩ | ⟨-, -, -, heq⟩ | ⟨hnew, hfull, -⟩
          · exact ⟨s.1.idxOf t, by rw [heq], by rw [heq, getElem?_idxOf hmem]⟩
          · exact ⟨s.1.length, by rw [heq], by rw [heq, List.getElem?_concat_length]⟩
          · exact absurd (h.enter hpool' ht hnew) hfull
  exact hprefix texts fun _ => id

theorem readBack_eq (h : 0 ∉ t) : readBack t = t := by
  refine List.takeWhile_eq_self_iff.mpr fun c hc => ?_
  have hne : c ≠ 0 := fun h0 => h (h0 ▸ hc)
  simpa [UInt8.pos_iff_ne_zero] using hne

theorem zero_notMem_readBack (t : Text) : 0 ∉ readBack t := by
  intro h
  have := List.mem_takeWhile_imp h
  simp at this

/-- **A column is read back** if and only if its strings have room and no zero byte. -/
theorem decodes_iff_fits : Decodes maxUnique bufSize texts ↔ Fits maxUnique bufSize texts := by
  have hpool := pool_encode maxUnique bufSize texts
  constructor
  · intro h
    -- The texts are read from the buffers, so they have no zero byte; nor have those of the pool.
    have hclean : ∀ t ∈ texts, 0 ∉ t := by
      intro t ht
      obtain ⟨i, hi⟩ := List.getElem?_of_mem ht
      obtain ⟨code, -, hread⟩ := h i t hi
      obtain ⟨r, -, rfl⟩ := Option.map_eq_some_iff.mp (List.getElem?_map.symm.trans hread)
      exact zero_notMem_readBack r
    have hmem : ∀ t ∈ texts, t ∈ (encode maxUnique bufSize texts).1 := by
      intro t ht
      obtain ⟨i, hi⟩ := List.getElem?_of_mem ht
      obtain ⟨code, -, hread⟩ := h i t hi
      obtain ⟨r, hr, hrt⟩ := Option.map_eq_some_iff.mp (List.getElem?_map.symm.trans hread)
      have hrmem := List.mem_of_getElem? hr
      rw [readBack_eq (hclean r (hpool.subset r hrmem))] at hrt
      exact hrt ▸ hrmem
    have hsubset : texts.toFinset ⊆ (encode maxUnique bufSize texts).1.toFinset := fun t ht =>
      List.mem_toFinset.mpr (hmem t (List.mem_toFinset.mp ht))
    refine ⟨?_, ?_, hclean⟩
    · calc texts.toFinset.card ≤ (encode maxUnique bufSize texts).1.toFinset.card :=
            Finset.card_le_card hsubset
        _ = (encode maxUnique bufSize texts).1.length := List.toFinset_card_of_nodup hpool.nodup
        _ ≤ maxUnique := hpool.length_le
    · calc ∑ t ∈ texts.toFinset, (t.length + 1)
          ≤ ∑ t ∈ (encode maxUnique bufSize texts).1.toFinset, (t.length + 1) :=
            Finset.sum_le_sum_of_subset hsubset
        _ = (layout (encode maxUnique bufSize texts).1).length := (layout_length hpool.nodup).symm
        _ ≤ bufSize := hpool.layout_le
  · intro h i t hi
    obtain ⟨k, hk, hget⟩ := h.codes i t hi
    have ht : t ∈ texts := List.mem_of_getElem? hi
    refine ⟨some k, hk, ?_⟩
    rw [Option.getD_some, List.getElem?_map, hget, Option.map_some, readBack_eq (h.clean t ht)]

end Lush.Csv
