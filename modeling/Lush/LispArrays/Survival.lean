import Lush.LispArrays.RoundTrip

/-!
# Which graphs with Lisp arrays survive

A graph comes back from `bread` if and only if no array has `MAXDIMS` dimensions, and the
graph keeps to the limits of the writer and of the relocation table (`arrays_survive`).
-/

namespace Lush.LispArrays

open Arrays Traversal Strides
open Binary (card24 binaryStart)
open Backpatch (Ghost Reading Full)

variable {ν : Type} [LinearOrder ν] {heap : ν → Node (Option ν)} {ks : List ν} {c : ν → ℕ}
  {g : Ghost ν Slot} {r : Reader} {swapflag : Bool} {a : ν}

/-! ## The graph that is read -/

/-- What a node is read as: an array is contiguous. -/
def Node.copy {ρ : Type} : Node ρ → Node ρ
  | .cons car cdr => .cons car cdr
  | .number x => .number x
  | .array ind data => .array (copyIndex ind) (elements ind data)

section

variable {ρ ρ' : Type} {o o' : Node ρ}

theorem kind_map (f : ρ → ρ') (o : Node ρ) : (o.map f).kind = o.kind := by
  cases o <;> simp [Node.map, Node.kind]

theorem fields_map (f : ρ → ρ') (o : Node ρ) : (o.map f).fields = o.fields.map f := by
  cases o <;> rfl

theorem map_map {ρ'' : Type} (f : ρ → ρ') (f' : ρ' → ρ'') (o : Node ρ) :
    (o.map f).map f' = o.map (f' ∘ f) := by
  cases o <;> simp [Node.map]

theorem kind_copy (o : Node ρ) : o.copy.kind = copyKind o := by
  cases o <;> rfl

theorem fields_copy (o : Node ρ) : o.copy.fields = o.children := by
  cases o <;> rfl

/-- The kind and the fields are all of a cell. -/
theorem eq_of_kind_fields (hkind : o.kind = o'.kind) (hfields : o.fields = o'.fields) : o = o' := by
  cases o <;> cases o' <;> simp_all [Node.kind, Node.fields]

/-- **The copy of an array** has the same dimensions and the same elements. -/
theorem copy_eq (hlegal : o.Legal) : o.copy.shape = o.shape ∧ o.copy.children = o.children := by
  cases o with
  | cons car cdr => exact ⟨rfl, rfl⟩
  | number x => exact ⟨rfl, rfl⟩
  | array ind data =>
      have hlegal' : Index.Legal data.length ind := hlegal
      cases hu : ind.unsized with
      | true =>
          constructor
          · simp [Node.copy, Node.shape, copyIndex, hu, dimensions, newIndex]
          · simp [Node.copy, Node.children, copyIndex, hu, elements, newIndex]
      | false =>
          have hdims : ∀ d ∈ ind.axes.map Axis.dim, 0 < d :=
            List.forall_mem_map.mpr hlegal'.positive
          have hlen : ((elements ind data).length : ℤ) = (ind.axes.map Axis.dim).prod := by
            rw [length_elements hlegal'.positive (hlegal'.inside hu) hu,
              count_eq_prod hlegal'.positive]
          constructor
          · simp [Node.copy, Node.shape, copyIndex, hu, dimensions, contiguous,
              map_dim_rowMajor]
          · show elements (copyIndex ind) (elements ind data) = elements ind data
            rw [copyIndex, hu]
            exact elements_contiguous hdims hlen

end

/-- **The cells that were read**, when no definition is open. -/
theorem cell_eq (h : Reading (kinds heap) ks c g r.view) (hopened : g.opened = ∅)
    (hfull : Full (refs heap) Slot.field (fun _ => 0) c g) (ha : c a ≠ 0) :
    r.cells[g.place a]? = some ((heap a).copy.map fun q => .ofRef (q.map g.place)) := by
  obtain ⟨o, ho, hkind⟩ := Option.map_eq_some_iff.mp (h.shape a ha)
  rw [ho]
  refine congrArg some (eq_of_kind_fields ?_ (List.ext_getElem ?_ fun i hi hi' => ?_))
  · rw [kind_map, kind_copy]
    exact hkind
  · rw [fields_map, List.length_map, fields_copy, length_fields, hkind]
    exact size_copyKind _
  · have hlt : i < (refs heap a).length := by
      rwa [fields_map, List.length_map, fields_copy] at hi'
    have hget : r.get (.field (g.place a) i) = some (.ofRef ((refs heap a)[i].map g.place)) :=
      h.get_eq hopened (hfull a rfl ha i _ (List.getElem?_eq_getElem hlt))
    have hfield : o.fields[i]? = some (.ofRef ((refs heap a)[i].map g.place)) := by
      simpa [Reader.get, ho] using hget
    rw [List.getElem?_eq_getElem hi, Option.some.injEq] at hfield
    rw [hfield]
    simp [fields_map, fields_copy, refs]

variable {p : Option ν} {image : Image} {visits : ν → ℕ}

/-- What has been written is read back, if the reader allows it. -/
theorem bread_written (swapflag : Bool) (hwritten : Written heap p image visits ks)
    (hvisits : ∀ a, visits a ≠ 0 ↔ Reachable (refs heap) [p] a) (hmem : ∀ a, a ∈ ks ↔ 2 ≤ visits a)
    (hall : ∀ a, Reachable (refs heap) [p] a →
      (heap a).Legal ∧ Writable (heap a) ∧ Readable (heap a))
    (hks : ks.length ≤ 10000000) (cells : List (Node Word)) (rest : List UInt8) :
    ∃ g r, bread swapflag cells 0 (image.bytes swapflag ++ rest) = .ok r ∧ r.input = rest ∧
      Reading (kinds heap) ks visits g r.view ∧ g.owner .ans = some p ∧
      Full (refs heap) Slot.field (fun _ => 0) visits g ∧ g.opened = ∅ := by
  have hnodup : ks.Nodup := hwritten.sorted.imp fun hlt => ne_of_lt hlt
  set input := bytesOf swapflag image.tokens ++ rest with hinput
  set r0 : Reader := ⟨input, cells, List.replicate ks.length (.null, .empty), .null⟩ with hr0
  have hreads := reads_of_emits swapflag hnodup (hks.trans (by decide)) hwritten.emits fun a ha =>
    hall a ((hvisits a).mp ha)
  have hfuel : image.tokens.length < input.length + 1 := by
    have hle := length_le_bytesOf swapflag image.tokens
    rw [hinput, List.length_append]
    omega
  obtain ⟨g, r, hr, hrest, hres⟩ := hreads (Ghost.start ν Slot) r0 [(true, .ans)] _ rest
    (Backpatch.reading_start (kinds heap) ks rfl) (by simp [Backpatch.View.Valid, Reader.view,
      Reader.get, Ghost.start]) (List.nodup_singleton _) rfl hfuel rfl
  obtain ⟨flag, r1, hr1, hnil⟩ := breadAll_cons_ok.mp hr
  cases hnil
  have hopened : g.opened = ∅ := hres.opened
  have hmine : g.owner .ans = some p := by
    cases hres.mine with
    | cons h _ => exact h
  refine ⟨g, r, ?_, hrest, hres.reading, hmine, hres.full, hopened⟩
  -- no relocation is left over
  have hany : (r.reloc.any fun e => e.2 ≠ .defd) = false := by
    have htable : r.reloc = ks.map (g.entry visits) := hres.reading.table
    rw [htable, List.any_map, List.any_eq_false]
    intro a ha
    have hvisit : visits a ≠ 0 := by
      have htwice := (hmem a).mp ha
      omega
    simp [Ghost.entry, hvisit, hopened]
  have hmod : ks.length % 16777216 = ks.length := Nat.mod_eq_of_lt (by omega)
  have hle : ¬ ks.length > 10000000 := by omega
  unfold bread
  simp only [Image.bytes, List.cons_append, List.append_assoc, Binary.readCard8_cons, Bind.bind,
    Except.bind, readCard24_mod, hwritten.relocn, hmod, hle, ← hinput, if_false, ne_eq,
    not_true_eq_false]
  have hread : localBread swapflag (input.length + 1) true .ans
      ⟨input, cells, List.replicate ks.length (.null, .empty), .null⟩ = .ok (flag, r) := hr1
  rw [hread]
  simpa using hany

/-- What a file that is read back shows of the graph. -/
theorem limits_of_bread (hwritten : Written heap p image visits ks)
    (hmem : ∀ a, a ∈ ks ↔ 2 ≤ visits a)
    (hall : ∀ a, visits a ≠ 0 → (heap a).Legal ∧ Writable (heap a)) {cells : List (Node Word)}
    {rest : List UInt8} (hr : bread swapflag cells 0 (image.bytes swapflag ++ rest) = .ok r) :
    (∀ a, visits a ≠ 0 → Readable (heap a)) ∧ ks.length ≤ 10000000 := by
  have hnodup : ks.Nodup := hwritten.sorted.imp fun hlt => ne_of_lt hlt
  unfold bread at hr
  simp only [Image.bytes, List.cons_append, List.append_assoc, Binary.readCard8_cons,
    hwritten.relocn, ne_eq, not_true_eq_false, if_false] at hr
  obtain ⟨_, htok, hr⟩ := bind_ok.mp hr
  cases htok
  simp only [not_true_eq_false, if_false] at hr
  obtain ⟨⟨relocn, input⟩, hrelocn, hr⟩ := bind_ok.mp hr
  rw [readCard24_mod, Except.ok.injEq, Prod.mk.injEq] at hrelocn
  obtain ⟨rfl, rfl⟩ := hrelocn
  by_cases hlarge : ks.length % 16777216 > 10000000
  · rw [if_pos hlarge] at hr
    cases hr
  rw [if_neg hlarge] at hr
  obtain ⟨⟨flag, r1⟩, hr1, hr⟩ := bind_ok.mp hr
  have hconsumed := hwritten.emits.consumed swapflag hall [(true, .ans)] _ _ r1 rest rfl rfl
    (breadAll_cons_ok.mpr ⟨flag, r1, hr1, rfl⟩)
  refine ⟨fun a ha => (hconsumed.node a rfl ha).1, ?_⟩
  by_contra hmany
  -- with so many relocations, the last of the first 2 ^ 24 has no entry in the table
  have hlt : 16777215 < ks.length := by omega
  have hlast : ks[16777215] ∈ ks := List.getElem_mem hlt
  have hvisit : visits ks[16777215] ≠ 0 := by
    have htwice := (hmem _).mp hlast
    omega
  have hentry := (hconsumed.node _ rfl hvisit).2 hlast
  rw [hnodup.idxOf_getElem _ hlt, List.length_replicate] at hentry
  omega

/-! ## Survival -/

variable [Fintype ν]

/-- The graph is written, and what was written is read back, whatever the memory holds and
whatever follows on the file; nothing more is read, and the graph read is isomorphic to the
one written. -/
def Survives (swapflag : Bool) (heap : ν → Node (Option ν)) (p : Option ν) : Prop :=
  ∃ file : List UInt8, bwrite swapflag heap 0 p = .ok (file, file.length) ∧
    ∀ (cells : List (Node Word)) (rest : List UInt8),
      ∃ (r : Reader) (heap' : ℕ → Node (Option ℕ)) (p' : Option ℕ),
        bread swapflag cells 0 (file ++ rest) = .ok r ∧ r.input = rest ∧
        r.ans = Backpatch.Word.ofRef p' ∧
        (∀ n, Reachable (refs heap') [p'] n →
          r.cells[n]? = some ((heap' n).map Backpatch.Word.ofRef)) ∧
        Paths.Isomorphic (fun a => (heap a).shape) (refs heap) p (fun n => (heap' n).shape)
          (refs heap') p'

/-- The limits that the writer and the reader set to a graph. -/
structure Limits (heap : ν → Node (Option ν)) (p : Option ν) : Prop where
  writable : ∀ a, Reachable (refs heap) [p] a → Writable (heap a)
  readable : ∀ a, Reachable (refs heap) [p] a → Readable (heap a)
  shared : (shared heap p).card ≤ 10000000

theorem survives_of_limits (swapflag : Bool)
    (hlegal : ∀ a, Reachable (refs heap) [p] a → (heap a).Legal) (h : Limits heap p) :
    Survives swapflag heap p := by
  obtain ⟨visits, ks, hvisits, hlength, hmem, hcases⟩ := writeImage_cases heap p
  rcases hcases with ⟨image, himage, hwritten, -⟩ | ⟨e, a, -, ha, hnot⟩
  · refine ⟨image.bytes swapflag, ?_, fun cells rest => ?_⟩
    · simp [bwrite, himage, Bind.bind, Except.bind, pure, Except.pure]
    obtain ⟨g, r, hr, hrest, hreading, hmine, hfull, hopened⟩ := bread_written swapflag hwritten
      hvisits hmem (fun a ha => ⟨hlegal a ha, h.writable a ha, h.readable a ha⟩)
      (hlength.trans_le h.shared) cells rest
    have hcell : ∀ a, Reachable (refs heap) [p] a → r.heap (g.place a) =
        (heap a).copy.map (Option.map g.place) ∧ r.cells[g.place a]? =
          some ((r.heap (g.place a)).map Backpatch.Word.ofRef) := by
      intro a ha
      have hcell := cell_eq hreading hopened hfull ((hvisits a).mpr ha)
      have hheap : r.heap (g.place a) = (heap a).copy.map (Option.map g.place) := by
        rw [Reader.heap, hcell, Option.map_some, Option.getD_some, map_map]
        congr 1
        funext q
        exact Backpatch.Word.ref_ofRef _
      refine ⟨hheap, ?_⟩
      rw [hcell, hheap, map_map]
      rfl
    have hrefs : ∀ a, Reachable (refs heap) [p] a →
        refs r.heap (g.place a) = (refs heap a).map (Option.map g.place) := by
      intro a ha
      rw [refs, (hcell a ha).1, children_map, (copy_eq (hlegal a ha)).2]
      rfl
    refine ⟨r, r.heap, p.map g.place, hr, hrest, ?_, fun n hn => ?_,
      .of_map (fun a ha => ?_) hrefs fun a b ha hb heq => ?_⟩
    · exact Option.some.inj (hreading.get_eq hopened hmine)
    · -- what is reachable after reading comes from what was reachable
      obtain ⟨a, ha, rfl⟩ : ∃ a, Reachable (refs heap) [p] a ∧ g.place a = n := by
        refine hn.induction (P := fun n => ∃ a, Reachable (refs heap) [p] a ∧ g.place a = n)
          (fun m hm => ?_) fun m m' hm hm' => ?_
        · cases p with
          | none => simp at hm
          | some a => exact ⟨a, .of_mem (by simp), by simpa [eq_comm] using hm⟩
        · obtain ⟨a, ha, rfl⟩ := hm
          rw [hrefs a ha, List.mem_map] at hm'
          obtain ⟨q, hq, hqm⟩ := hm'
          obtain ⟨b, rfl, hb⟩ := Option.map_eq_some_iff.mp hqm
          exact ⟨b, ha.step hq, hb⟩
      exact (hcell a ha).2
    · show (r.heap (g.place a)).shape = (heap a).shape
      rw [(hcell a ha).1, shape_map, (copy_eq (hlegal a ha)).1]
    · exact hreading.inj a b ((hvisits a).mpr ha) ((hvisits b).mpr hb) heq
  · exact absurd (h.writable a ha) hnot

theorem limits_of_survives (swapflag : Bool)
    (hlegal : ∀ a, Reachable (refs heap) [p] a → (heap a).Legal) (h : Survives swapflag heap p) :
    Limits heap p := by
  obtain ⟨file, hfile, hread⟩ := h
  obtain ⟨visits, ks, hvisits, hlength, hmem, hcases⟩ := writeImage_cases heap p
  rcases hcases with ⟨image, himage, hwritten, hwritable⟩ | ⟨e, a, he, -, -⟩
  · have hbytes : image.bytes swapflag = file := by
      simp only [bwrite, himage, Bind.bind, Except.bind, pure, Except.pure, ne_eq,
        not_true_eq_false, if_false, Except.ok.injEq, Prod.mk.injEq] at hfile
      exact hfile.1
    obtain ⟨r, -, -, hr, -⟩ := hread [] []
    rw [← hbytes] at hr
    obtain ⟨hreadable, hks⟩ := limits_of_bread hwritten hmem
      (fun a ha => ⟨hlegal a ((hvisits a).mp ha), hwritable a ((hvisits a).mp ha)⟩) hr
    exact ⟨hwritable, fun a ha => hreadable a ((hvisits a).mpr ha), hlength.symm.trans_le hks⟩
  · simp [bwrite, he, Bind.bind, Except.bind] at hfile

/-- **Lisp arrays survive `bwrite` and `bread`** if and only if the graph keeps to the limits
of both: no array has `MAXDIMS` dimensions, no dimension is larger than an `int`, and at
most ten million objects are met through several references. -/
theorem arrays_survive (swapflag : Bool) (heap : ν → Node (Option ν)) (p : Option ν)
    (hlegal : ∀ a, Reachable (refs heap) [p] a → (heap a).Legal) :
    Survives swapflag heap p ↔ Limits heap p :=
  ⟨limits_of_survives swapflag hlegal, survives_of_limits swapflag hlegal⟩

/-- An array of two elements with negative stride, one of which is the array itself. -/
def knot : Fin 1 → Node (Option (Fin 1))
  | 0 => .array ⟨1, false, 1, [⟨2, -1⟩]⟩ [none, some ⟨0, Nat.one_pos⟩]

theorem arrays_survive_knot : Survives true knot (some 0) := by
  refine (arrays_survive true knot (some 0) fun a _ => ?_).mpr ⟨fun a _ => ?_, fun a _ => ?_, ?_⟩
  · match a with
    | 0 => exact ⟨by decide, by simp [Positive], by decide, fun _ => ⟨by decide, by decide⟩⟩
  · match a with
    | 0 => simp [knot, Writable, dimensions, intMax]
  · match a with
    | 0 => simp [knot, Readable, maxDims]
  · calc (shared knot (some 0)).card ≤ Fintype.card (Fin 1) := Finset.card_le_univ _
      _ ≤ 10000000 := by decide

/-- One element in eleven dimensions. -/
def deep : Fin 1 → Node (Option (Fin 1))
  | 0 => .array ⟨11, false, 0, List.replicate 11 ⟨1, 1⟩⟩ [none]

/-- The writer accepts eleven dimensions, and the reader does not. -/
theorem not_survives_deep : (∀ a, (deep a).Legal) ∧ ¬ Survives true deep (some 0) := by
  have hlegal : ∀ a, (deep a).Legal := by
    intro a
    match a with
    | 0 => exact ⟨by decide, by simp [Positive], by decide, fun _ => ⟨by decide, by decide⟩⟩
  refine ⟨hlegal, fun h => ?_⟩
  have hlimits := limits_of_survives true (fun a _ => hlegal a) h
  have hreadable : maxDims < maxDims := hlimits.readable 0 (.of_mem (by simp))
  exact absurd hreadable (lt_irrefl _)

end Lush.LispArrays
