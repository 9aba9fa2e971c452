import Lush.Basic

/-!
# Lists with keys

What `List.lookup` gives in association lists that are made of others.  In a list in which every
key comes once, taking values out by a condition on the value is the same as asking the value
that is found for the condition (`lookup_filter`).

Lists that are put together of one part for each key, where the elements of a part have its
key: the parts are found again by their keys (`filter_flatMap_of_key`), and the parts that a
list has for some keys are its elements with these keys (`flatMap_filter_perm`).
-/

namespace Lush.Lookup

variable {κ υ ω ι : Type*} [DecidableEq κ]

theorem lookup_eq_none_iff {l : List (κ × υ)} {key : κ} :
    l.lookup key = none ↔ key ∉ l.map Prod.fst := by
  rw [List.lookup_eq_none_iff]
  refine ⟨fun h hmem => ?_, fun h q hq => ?_⟩
  · obtain ⟨q, hq, rfl⟩ := List.mem_map.mp hmem
    exact absurd (h q hq) (by simp)
  · have hne : key ≠ q.1 := fun heq => h (List.mem_map.mpr ⟨q, hq, heq.symm⟩)
    simpa using hne

theorem lookup_cons_of_ne {l : List (κ × υ)} {key k : κ} (hne : key ≠ k) (v : υ) :
    ((k, v) :: l).lookup key = l.lookup key := by
  have hb : (key == k) = false := beq_eq_false_iff_ne.mpr hne
  rw [List.lookup_cons, hb]

theorem lookup_filter {p : υ → Bool} {l : List (κ × υ)} (hnodup : (l.map Prod.fst).Nodup)
    (key : κ) : (l.filter fun q => p q.2).lookup key = (l.lookup key).filter p := by
  induction l with
  | nil => rfl
  | cons q l ih =>
      obtain ⟨k, v⟩ := q
      obtain ⟨hk, hl⟩ := List.nodup_cons.mp hnodup
      by_cases hkey : key = k
      · subst hkey
        rw [List.lookup_cons_self]
        by_cases hp : p v = true
        · rw [List.filter_cons_of_pos (p := fun q : κ × υ => p q.2) hp, List.lookup_cons_self]
          exact (Option.filter_some_pos hp).symm
        · have hnone : l.lookup key = none := lookup_eq_none_iff.mpr hk
          rw [List.filter_cons_of_neg (p := fun q : κ × υ => p q.2) hp, ih hl, hnone]
          exact (Option.filter_some_neg (by simpa using hp)).symm
      · rw [lookup_cons_of_ne hkey, ← ih hl, List.filter_cons]
        split_ifs
        exacts [lookup_cons_of_ne hkey v, rfl]

theorem lookup_flatMap {entries : ι → List (κ × υ)} (is : List ι) (key : κ) :
    (is.flatMap entries).lookup key = is.findSome? fun i => (entries i).lookup key := by
  induction is with
  | nil => rfl
  | cons i is ih =>
      rw [List.flatMap_cons, List.lookup_append, List.findSome?_cons, ih]
      cases (entries i).lookup key <;> rfl

theorem lookup_map (f : υ → ω) (l : List (κ × υ)) (key : κ) :
    (l.map fun q => (q.1, f q.2)).lookup key = (l.lookup key).map f := by
  induction l with
  | nil => rfl
  | cons q l ih =>
      rw [List.map_cons, List.lookup_cons, List.lookup_cons, ih]
      cases key == q.1 <;> rfl

end Lush.Lookup

namespace Lush.Grouping

variable {α β γ : Type*} [DecidableEq β]

/-- Elements that are gathered by their keys. -/
theorem flatMap_filter_perm (key : α → β) {keys : List β} {l : List α} (hkeys : keys.Nodup) :
    (keys.flatMap fun c => l.filter (key · = c)).Perm (l.filter (key · ∈ keys)) := by
  induction l with
  | nil => simp
  | cons a l ih =>
      have hcons : ∀ c, (a :: l).filter (key · = c) =
          (if key a = c then [a] else []) ++ l.filter (key · = c) := by
        intro c
        by_cases hc : key a = c <;> simp [hc]
      have hhead : (keys.flatMap fun c => if key a = c then [a] else []) =
          if key a ∈ keys then [a] else [] := by
        clear ih hcons
        induction keys with
        | nil => rfl
        | cons c keys ih =>
            obtain ⟨hc, hkeys⟩ := List.nodup_cons.mp hkeys
            rw [List.flatMap_cons, ih hkeys]
            by_cases hac : key a = c
            · rw [if_pos hac, if_neg (hac ▸ hc), if_pos (hac ▸ List.mem_cons_self),
                List.append_nil]
            · simp [hac]
      simp only [hcons]
      refine (List.flatMap_append_perm _ _ _).symm.trans ?_
      rw [hhead]
      by_cases ha : key a ∈ keys
      · rw [if_pos ha, List.filter_cons_of_pos (by simpa using ha)]
        exact ih.cons a
      · rw [if_neg ha, List.filter_cons_of_neg (by simpa using ha)]
        exact ih

/-- A part is found again by its key. -/
theorem filter_flatMap_of_key {f : β → List α} {key : α → β} {keys : List β}
    (hkeys : keys.Nodup) (hf : ∀ c, ∀ a ∈ f c, key a = c) (c : β) :
    (keys.flatMap f).filter (key · = c) = if c ∈ keys then f c else [] := by
  induction keys with
  | nil => rfl
  | cons b keys ih =>
      obtain ⟨hb, hkeys⟩ := List.nodup_cons.mp hkeys
      rw [List.flatMap_cons, List.filter_append, ih hkeys]
      by_cases hbc : b = c
      · subst hbc
        rw [if_neg hb, if_pos List.mem_cons_self, List.append_nil]
        exact List.filter_eq_self.mpr fun a ha => decide_eq_true (hf b a ha)
      · have hnone : (f b).filter (key · = c) = [] :=
          List.filter_eq_nil_iff.mpr fun a ha => by simpa [hf b a ha] using hbc
        rw [hnone, List.nil_append]
        simp [List.mem_cons, Ne.symm hbc]

omit [DecidableEq β] in
/-- Two loops of which each goes through the parts of the other. -/
theorem flatMap_comm_perm (f : α → β → List γ) (l : List α) (l' : List β) :
    (l.flatMap fun a => l'.flatMap (f a)).Perm (l'.flatMap fun b => l.flatMap fun a => f a b) := by
  induction l' with
  | nil => simp
  | cons b l' ih =>
      simp only [List.flatMap_cons]
      exact (List.flatMap_append_perm l _ _).symm.trans (ih.append_left _)

end Lush.Grouping
