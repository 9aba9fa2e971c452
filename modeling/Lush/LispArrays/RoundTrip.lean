import Lush.LispArrays.Tokens

/-!
# Reading back Lisp arrays

The reader follows the emission of the tokens, by induction on `Emits`: what it does with
each token is one of the things that `Backpatch` is about (`reads_of_emits`).  In the other
direction, a file that is read to its end has no array with `MAXDIMS` dimensions, and its
table has an entry for every definition (`Emits.consumed`).
-/

namespace Lush.LispArrays

open Arrays Traversal
open Binary (card24 binaryStart)
open Backpatch (Ghost Reading Result Results NodeResult Patched Threaded Flag Full link Made)

variable {ν : Type} [LinearOrder ν] {heap : ν → Node (Option ν)} {ks : List ν} {c c' : ν → ℕ}
  {g : Ghost ν Slot} {r r' : Reader} {pp : Slot} {swapflag : Bool} {a : ν} {ts : List Token}

/-! ## Definitions -/

/-- The end of a definition patches the thread of the object. -/
theorem define_ok {ss : List Slot} {n : ℕ} (k : ℕ) (hget : r.get pp = some (.obj n))
    (hthread : Threaded r.view ss) (hnodup : ss.Nodup) :
    ∃ r', define pp k (link ss) (if ss = [] then .empty else .refd) r = .ok (false, r') ∧
      Patched r.view r'.view (.obj n) ss ∧
      r'.view.table = r.view.table.set k (.obj n, .defd) ∧ r'.input = r.input := by
  have hpp : pp ∉ ss := fun hmem => hthread.get_ne hmem n hget
  have hrounds : ss.length < places r + 3 := by
    have hle := length_le_places hnodup hthread.valid
    omega
  obtain ⟨r1, hr1, hpatched, hreloc, hinput⟩ := defineRefdReloc_ok (.obj n) ss _ r hthread hnodup
    hrounds
  have hget1 : r1.get pp = some (.obj n) := (hpatched.frame pp hpp).trans hget
  refine ⟨r1.setReloc k (.obj n) .defd, ?_, ⟨hpatched.mem, hpatched.frame, hpatched.size,
    hpatched.shape⟩, ?_, hinput⟩
  · by_cases hnil : ss = []
    · -- an empty thread is not patched at all
      subst hnil
      have hr : r = r1 := by simpa [link, defineRefdReloc] using hr1
      subst hr
      simp [define, Bind.bind, Except.bind, Reader.deref, hget]
    · simp [define, hnil, Bind.bind, Except.bind, Reader.deref, hget, hr1, hget1]
  · show r1.reloc.set k _ = _
    rw [hreloc]
    rfl

/-! ## The emission is read -/

/-- The kinds of the cells that the graph is read as. -/
def kinds (heap : ν → Node (Option ν)) (a : ν) : Kind := copyKind (heap a)

/-- The tokens are read as the references `ps`. -/
def Reads (swapflag : Bool) (heap : ν → Node (Option ν)) (ks : List ν) (c c' : ν → ℕ)
    (ps : List (Option ν)) (ts : List Token) : Prop :=
  ∀ (g : Ghost ν Slot) (r : Reader) (xs : List (Bool × Slot)) (fuel : ℕ) (rest : List UInt8),
    Reading (kinds heap) ks c g r.view → (∀ x ∈ xs, r.view.Valid x.2 ∧ g.owner x.2 = none) →
    (xs.map Prod.snd).Nodup → xs.length = ps.length → ts.length < fuel →
    r.input = bytesOf swapflag ts ++ rest →
    ∃ g' r', breadAll swapflag fuel xs r = .ok r' ∧ r'.input = rest ∧
      Results (refs heap) Slot.field (kinds heap) ks c c' ps g g' r.view r'.view
        (xs.map Prod.snd)

/-- **A node is read** if its fields are. -/
theorem localBread_reads (fuel : ℕ) (ret : Bool) {rest : List UInt8} (hc : c a = 0)
    (hlegal : (heap a).Legal) (hwritable : Writable (heap a)) (hreadable : Readable (heap a))
    (hfields : Reads swapflag heap ks (bump c a) c' (heap a).children ts)
    (hreading : Reading (kinds heap) ks c g r.view) (hvalid : r.view.Valid pp)
    (hpp : g.owner pp = none) (hfuel : ts.length < fuel)
    (hinput : r.input = bytesOf swapflag (nodeToken (heap a) :: ts) ++ rest) :
    ∃ g' r', localBread swapflag (fuel + 1) ret pp r = .ok (false, r') ∧ r'.input = rest ∧
      NodeResult (refs heap) Slot.field (kinds heap) ks c c' a g g' r.view r'.view pp := by
  set n := r.cells.length with hn
  set r1 : Reader := { r with input := bytesOf swapflag ts ++ rest }.alloc pp (newCell (heap a))
    with hr1
  have hmade : Made r.view r1.view pp (kinds heap a) := by
    have hmade := made_alloc (r := { r with input := bytesOf swapflag ts ++ rest }) hvalid
      (newCell (heap a))
    rwa [kind_newCell] at hmade
  have hnew : ∀ i, ¬ r.view.Valid (.field n i) := not_valid_new r
  have hplaces : ∀ x ∈ newPlaces n (heap a), r1.view.Valid x.2 ∧
      (g.enter ks a n pp).owner x.2 = none := by
    intro x hx
    have hmem : x.2 ∈ (newPlaces n (heap a)).map Prod.snd := List.mem_map_of_mem hx
    rw [newPlaces_snd, List.mem_map] at hmem
    obtain ⟨i, hi, hx2⟩ := hmem
    rw [← hx2]
    constructor
    · have hget := get_alloc_new (r := { r with input := bytesOf swapflag ts ++ rest }) hvalid
        (newCell (heap a)) i
      have hlt : i < (newCell (heap a)).fields.length := by
        rw [length_fields, kind_newCell, size_copyKind]
        exact List.mem_range.mp hi
      exact .of_get (hget.trans (List.getElem?_eq_getElem hlt))
    · have hne : Slot.field n i ≠ pp := fun h => hnew i (h ▸ hvalid)
      cases howner : g.owner (.field n i) with
      | none => simp [Ghost.enter, hne, howner]
      | some q => exact absurd (hreading.valid howner) (hnew i)
  have hnodup : ((newPlaces n (heap a)).map Prod.snd).Nodup := by
    rw [newPlaces_snd]
    exact List.nodup_range.map fun i j h => by simpa using h
  obtain ⟨g', r', hr', hrest, hresults⟩ := hfields (g.enter ks a n pp) r1 (newPlaces n (heap a))
    fuel rest (hreading.enter hc hpp hmade) hplaces hnodup (length_newPlaces _ _) hfuel
    (alloc_input _ _ _)
  refine ⟨g', r', ?_, hrest, Results.node hc hvalid hpp hmade hnew ?_⟩
  · rw [localBread_node hlegal hwritable hreadable hinput, hr']
    rfl
  · rw [newPlaces_snd] at hresults
    exact hresults

/-- The definition around a node. -/
theorem localBread_announce (fuel : ℕ) (ret : Bool) {rest : List UInt8} (hnodup : ks.Nodup)
    (hks : ks.length ≤ 16777216) (hc : c a = 0) (hlegal : (heap a).Legal)
    (hwritable : Writable (heap a)) (hreadable : Readable (heap a))
    (hfields : Reads swapflag heap ks (bump c a) c' (heap a).children ts) (hc' : c' a ≠ 0)
    (hreading : Reading (kinds heap) ks c g r.view) (hvalid : r.view.Valid pp)
    (hpp : g.owner pp = none) (hfuel : (announce ks a).length + ts.length + 1 < fuel)
    (hinput : r.input = bytesOf swapflag (announce ks a ++ nodeToken (heap a) :: ts) ++ rest) :
    ∃ g' r', localBread swapflag fuel ret pp r = .ok (false, r') ∧ r'.input = rest ∧
      Result (refs heap) Slot.field (kinds heap) ks c c' (some a) g g' r.view r'.view pp := by
  by_cases ha : a ∈ ks
  · rw [announce, if_pos ha, List.length_singleton] at hfuel
    obtain ⟨fuel, rfl⟩ : ∃ k, fuel = k + 2 := ⟨fuel - 2, by omega⟩
    rw [announce, if_pos ha, List.singleton_append] at hinput
    obtain ⟨g1, r1, hr1, hrest, hnode⟩ := localBread_reads fuel true
      (r := { r with input := bytesOf swapflag (nodeToken (heap a) :: ts) ++ rest })
      hc hlegal hwritable hreadable hfields hreading hvalid hpp (by omega) rfl
    have hmem : a ∈ g1.opened := by
      simp [hnode.opened, ha]
    have hidx : ks.idxOf a % 16777216 = ks.idxOf a :=
      Nat.mod_eq_of_lt ((List.idxOf_lt_length_of_mem ha).trans_le hks)
    have hentry : r1.reloc[ks.idxOf a % 16777216]? =
        some (link (g1.chain a), if g1.chain a = [] then .empty else .refd) := by
      rw [hidx]
      refine (hnode.reading.table_eq ha).trans ?_
      simp [Ghost.entry, hc', hmem]
    obtain ⟨r2, hr2, hpatched, htable, hinput2⟩ := define_ok (ks.idxOf a) hnode.get
      (hnode.reading.threaded a hmem) (hnode.reading.nodup a hmem)
    refine ⟨g1.close a, r2, ?_, hinput2.trans hrest,
      hnode.close hreading hnodup hc ha hpatched htable⟩
    rw [localBread_defn hinput hr1 hentry (by split <;> simp), hidx, hr2]
  · rw [announce, if_neg ha, List.length_nil] at hfuel
    obtain ⟨fuel, rfl⟩ : ∃ k, fuel = k + 1 := ⟨fuel - 1, by omega⟩
    rw [announce, if_neg ha, List.nil_append] at hinput
    obtain ⟨g1, r1, hr1, hrest, hnode⟩ := localBread_reads fuel ret hc hlegal hwritable hreadable
      hfields hreading hvalid hpp (by omega) hinput
    exact ⟨g1, r1, hr1, hrest, hnode.result ha⟩

/-- The first reference, and then the others. -/
theorem Reads.cons {p : Option ν} {ps : List (Option ν)} {us : List Token} {c1 : ν → ℕ}
    (hc : ∀ b, c b ≠ 0 → c1 b ≠ 0)
    (hhead : ∀ (g : Ghost ν Slot) (r : Reader) (pp : Slot) (ret : Bool) (fuel : ℕ)
      (rest : List UInt8), Reading (kinds heap) ks c g r.view → r.view.Valid pp →
      g.owner pp = none → (ts ++ us).length < fuel → r.input = bytesOf swapflag ts ++ rest →
      ∃ flag g' r', localBread swapflag fuel ret pp r = .ok (flag, r') ∧ r'.input = rest ∧
        Result (refs heap) Slot.field (kinds heap) ks c c1 p g g' r.view r'.view pp)
    (htail : Reads swapflag heap ks c1 c' ps us) :
    Reads swapflag heap ks c c' (p :: ps) (ts ++ us) := by
  intro g r xs fuel rest hreading hplaces hnodup hlen hfuel hinput
  cases xs with
  | nil => simp at hlen
  | cons x xs =>
      obtain ⟨⟨hvalid, hnone⟩, hxs⟩ := List.forall_mem_cons.mp hplaces
      rw [List.map_cons, List.nodup_cons] at hnodup
      rw [bytesOf_append, List.append_assoc] at hinput
      obtain ⟨flag, g1, r1, hr1, hinput1, hresult⟩ := hhead g r x.2 x.1 fuel _ hreading hvalid hnone
        hfuel hinput
      have hxs1 : ∀ y ∈ xs, r1.view.Valid y.2 ∧ g1.owner y.2 = none := by
        intro y hy
        have hne : y.2 ∉ ({x.2} : Set Slot) := fun heq =>
          hnodup.1 (heq ▸ List.mem_map_of_mem hy)
        exact ⟨hresult.ext.valid _ (hxs y hy).1,
          hresult.ext.fresh _ hne (hxs y hy).1 (hxs y hy).2⟩
      obtain ⟨g2, r2, hr2, hinput2, hresults⟩ := htail g1 r1 xs fuel rest hresult.reading hxs1
        hnodup.2 (by simpa using hlen) (by rw [List.length_append] at hfuel; omega) hinput1
      exact ⟨g2, r2, breadAll_cons_ok.mpr ⟨flag, r1, hr1, hr2⟩, hinput2,
        .cons hresult hresults hc⟩

/-- **The reader follows the writer.** -/
theorem reads_of_emits (swapflag : Bool) (hnodup : ks.Nodup) (hks : ks.length ≤ 16777216)
    {ps : List (Option ν)} (h : Emits heap ks c ps ts c')
    (hall : ∀ a, c' a ≠ 0 → (heap a).Legal ∧ Writable (heap a) ∧ Readable (heap a)) :
    Reads swapflag heap ks c c' ps ts := by
  induction h with
  | nil =>
      intro g r xs fuel rest hreading _ _ hlen _ hinput
      obtain rfl := List.length_eq_zero_iff.mp hlen
      exact ⟨g, r, rfl, hinput, .nil hreading⟩
  | @null c ps ts c' h ih =>
      show Reads swapflag heap ks c c' (none :: ps) ([.nil] ++ ts)
      refine Reads.cons (fun _ hb => hb) ?_ (ih hall)
      intro g r pp ret fuel rest hreading hvalid hpp hfuel hinput
      obtain ⟨fuel, rfl⟩ : ∃ k, fuel = k + 1 := ⟨fuel - 1, by omega⟩
      obtain ⟨hstored, htable⟩ := stored_put (r := { r with input := rest }) hvalid .null
      exact ⟨false, g.own pp none, _, localBread_nil hinput, put_input _ _ _,
        Backpatch.result_null hreading hpp hstored htable⟩
  | @ref c a ps ts c' hc ha h ih =>
      show Reads swapflag heap ks c c' (some a :: ps) ([.ref (ks.idxOf a)] ++ ts)
      refine Reads.cons (fun b hb => ?_) ?_ (ih hall)
      · have hle := le_bump c a b
        omega
      intro g r pp ret fuel rest hreading hvalid hpp hfuel hinput
      obtain ⟨fuel, rfl⟩ : ∃ k, fuel = k + 1 := ⟨fuel - 1, by omega⟩
      have hidx : ks.idxOf a % 16777216 = ks.idxOf a :=
        Nat.mod_eq_of_lt ((List.idxOf_lt_length_of_mem ha).trans_le hks)
      have hentry : r.reloc[ks.idxOf a % 16777216]? = some (g.entry c a) := by
        rw [hidx]
        exact hreading.table_eq ha
      by_cases hopen : a ∈ g.opened
      · obtain ⟨hstored, htable⟩ := stored_put (r := { r with input := rest }) hvalid
          (link (g.chain a))
        have hentry' : g.entry c a =
            (link (g.chain a), if g.chain a = [] then .empty else .refd) := by
          simp [Ghost.entry, hc, hopen]
        rw [hentry'] at hentry
        refine ⟨ret, g.join pp a, ({ r with input := rest }.put pp (link (g.chain a))).setReloc
          (ks.idxOf a) (.slot pp) .refd, ?_, put_input { r with input := rest } _ _,
          Backpatch.result_open hreading hnodup hpp hopen
            ⟨hstored.self, hstored.frame, hstored.size, hstored.shape⟩ ?_⟩
        · rw [localBread_ref hinput hentry, if_neg (by split <;> simp), hidx]
          rfl
        · show ({ r with input := rest }.put pp _).view.table.set _ _ = _
          rw [htable]
          rfl
      · obtain ⟨hstored, htable⟩ := stored_put (r := { r with input := rest }) hvalid
          (.obj (g.place a))
        have hentry' : g.entry c a = (.obj (g.place a), .defd) := by
          simp [Ghost.entry, hc, hopen]
        rw [hentry'] at hentry
        refine ⟨false, g.own pp (some a), _, ?_, put_input { r with input := rest } pp
          (.obj (g.place a)), Backpatch.result_known hreading hpp hc hstored htable⟩
        rw [localBread_ref hinput hentry, if_pos rfl]
        rfl
  | @node c a ts c1 ps us c' hc h1 h2 ih1 ih2 =>
      have hpos : ∀ b, bump c a b ≠ 0 → c1 b ≠ 0 := fun b hb =>
        (Nat.lt_of_lt_of_le (Nat.pos_of_ne_zero hb) (h1.le b)).ne'
      have hpos' : ∀ b, c1 b ≠ 0 → c' b ≠ 0 := fun b hb =>
        (Nat.lt_of_lt_of_le (Nat.pos_of_ne_zero hb) (h2.le b)).ne'
      have hca : c1 a ≠ 0 := hpos a (by simp)
      obtain ⟨hlegal, hwritable, hreadable⟩ := hall a (hpos' a hca)
      have hsplit : announce ks a ++ nodeToken (heap a) :: (ts ++ us) =
          (announce ks a ++ nodeToken (heap a) :: ts) ++ us := by simp
      rw [hsplit]
      refine Reads.cons (fun b hb => hpos b ?_) ?_ (ih2 hall)
      · have hle := le_bump c a b
        omega
      intro g r pp ret fuel rest hreading hvalid hpp hfuel hinput
      have hfuel' : (announce ks a).length + ts.length + 1 < fuel := by
        simp only [List.length_append, List.length_cons] at hfuel
        omega
      obtain ⟨g', r', hr', hrest, hresult⟩ := localBread_announce fuel ret hnodup hks hc hlegal
        hwritable hreadable (ih1 fun b hb => hall b (hpos' b hb)) hca hreading hvalid hpp hfuel'
        hinput
      exact ⟨false, g', r', hr', hrest, hresult⟩

/-! ## Files that are read to the end -/

theorem put_reloc (r : Reader) (s : Slot) (w : Word) : (r.put s w).reloc = r.reloc := by
  cases s <;> rfl

/-- A patch reads nothing, and leaves the table alone. -/
theorem defineRefdReloc_frame {p : Word} : ∀ {rounds : ℕ} {h : Word} {r r' : Reader},
    defineRefdReloc p rounds h r = .ok r' → r'.input = r.input ∧ r'.reloc = r.reloc := by
  intro rounds
  induction rounds with
  | zero => intro h r r' hr; cases hr
  | succ rounds ih =>
      intro h r r' hr
      cases h with
      | null =>
          cases hr
          exact ⟨rfl, rfl⟩
      | obj n => cases hr
      | slot s =>
          obtain ⟨f, -, hr⟩ := bind_ok.mp hr
          obtain ⟨hinput, hreloc⟩ := ih hr
          exact ⟨hinput.trans (put_input _ _ _), hreloc.trans (put_reloc _ _ _)⟩

theorem define_frame {k : ℕ} {h : Word} {f : Flag} {flag : Bool}
    (hr : define pp k h f r = .ok (flag, r')) :
    r'.input = r.input ∧ r'.reloc.length = r.reloc.length := by
  have hset : ∀ (r1 : Reader) (p : Word), (r1.setReloc k p .defd).reloc.length =
      r1.reloc.length := fun r1 p => List.length_set
  obtain ⟨p, -, hr⟩ := bind_ok.mp hr
  by_cases hf : f = .refd
  · simp only [hf, if_true] at hr
    obtain ⟨r1, hr1, hr⟩ := bind_ok.mp hr
    obtain ⟨p', -, hr⟩ := bind_ok.mp hr
    cases hr
    obtain ⟨hinput, hreloc⟩ := defineRefdReloc_frame hr1
    exact ⟨hinput, by rw [hset, hreloc]⟩
  · simp only [hf, if_false] at hr
    obtain ⟨r1, hr1, hr⟩ := bind_ok.mp hr
    obtain ⟨p', -, hr⟩ := bind_ok.mp hr
    cases hr
    cases hr1
    exact ⟨rfl, hset _ _⟩

/-- What a read that goes through shows: the tokens are consumed, the nodes have few
enough dimensions, and the definitions have an entry in the table. -/
structure Consumed (heap : ν → Node (Option ν)) (ks : List ν) (c c' : ν → ℕ) (r r' : Reader)
    (rest : List UInt8) : Prop where
  input : r'.input = rest
  reloc : r'.reloc.length = r.reloc.length
  node : ∀ a, c a = 0 → c' a ≠ 0 →
    Readable (heap a) ∧ (a ∈ ks → ks.idxOf a % 16777216 < r.reloc.length)

theorem Consumed.trans {c1 : ν → ℕ} {r1 : Reader} {mid rest : List UInt8}
    (h : Consumed heap ks c c1 r r1 mid) (h' : Consumed heap ks c1 c' r1 r' rest) :
    Consumed heap ks c c' r r' rest where
  input := h'.input
  reloc := h'.reloc.trans h.reloc
  node a ha ha' := by
    by_cases h1 : c1 a = 0
    · rw [← h.reloc]
      exact h'.node a h1 ha'
    · exact h.node a ha h1

/-- A node that is read. -/
theorem localBread_consumed {fuel : ℕ} {ret flag : Bool} {rest : List UInt8} {c1 : ν → ℕ}
    (hlegal : (heap a).Legal) (hwritable : Writable (heap a))
    (hfields : ∀ (xs : List (Bool × Slot)) (fuel : ℕ) (r r' : Reader) (rest : List UInt8),
      xs.length = (heap a).children.length → r.input = bytesOf swapflag ts ++ rest →
      breadAll swapflag fuel xs r = .ok r' → Consumed heap ks (bump c a) c1 r r' rest)
    (hinput : r.input = bytesOf swapflag (announce ks a ++ nodeToken (heap a) :: ts) ++ rest)
    (hr : localBread swapflag fuel ret pp r = .ok (flag, r')) :
    Consumed heap ks c c1 r r' rest := by
  -- the node without its definition
  have hnode : ∀ {fuel : ℕ} {ret flag : Bool} {r r' : Reader},
      r.input = bytesOf swapflag (nodeToken (heap a) :: ts) ++ rest →
      localBread swapflag fuel ret pp r = .ok (flag, r') →
      Readable (heap a) ∧ Consumed heap ks (bump c a) c1 r r' rest := by
    intro fuel ret flag r r' hinput hr
    obtain _ | fuel := fuel
    · cases hr
    have hreadable : Readable (heap a) := by
      by_contra hnot
      rw [localBread_refuses hlegal hnot hinput] at hr
      cases hr
    rw [localBread_node hlegal hwritable hreadable hinput] at hr
    cases hall : breadAll swapflag fuel (newPlaces r.cells.length (heap a))
        ({ r with input := bytesOf swapflag ts ++ rest }.alloc pp (newCell (heap a))) with
    | error e =>
        rw [hall] at hr
        cases hr
    | ok r1 =>
        rw [hall] at hr
        cases hr
        have hconsumed := hfields _ _ _ _ rest (length_newPlaces _ _) (alloc_input _ _ _) hall
        have hreloc : ({ r with input := bytesOf swapflag ts ++ rest }.alloc pp
            (newCell (heap a))).reloc = r.reloc := put_reloc _ _ _
        refine ⟨hreadable, hconsumed.input, hconsumed.reloc.trans (by rw [hreloc]), ?_⟩
        rw [← hreloc]
        exact hconsumed.node
  by_cases ha : a ∈ ks
  · rw [announce, if_pos ha, List.singleton_append] at hinput
    obtain _ | fuel := fuel
    · cases hr
    obtain ⟨unresolved, r1, h, f, hbody, hreloc, hdefine⟩ := localBread_defn_ok hinput hr
    obtain ⟨hreadable, hconsumed⟩ := hnode rfl hbody
    obtain ⟨hinput', hlength⟩ := define_frame hdefine
    refine ⟨hinput'.trans hconsumed.input, hlength.trans hconsumed.reloc, fun b hb hb' => ?_⟩
    by_cases hba : b = a
    · subst hba
      refine ⟨hreadable, fun _ => ?_⟩
      have hlt := (List.getElem?_eq_some_iff.mp hreloc).1
      exact hlt.trans_eq hconsumed.reloc
    · exact hconsumed.node b (by simpa [hba] using hb) hb'
  · rw [announce, if_neg ha, List.nil_append] at hinput
    obtain ⟨hreadable, hconsumed⟩ := hnode hinput hr
    refine ⟨hconsumed.input, hconsumed.reloc, fun b hb hb' => ?_⟩
    by_cases hba : b = a
    · subst hba
      exact ⟨hreadable, fun hmem => absurd hmem ha⟩
    · exact hconsumed.node b (by simpa [hba] using hb) hb'

/-- **A file that is read to its end** keeps to the limits of the reader. -/
theorem Emits.consumed (swapflag : Bool) {ps : List (Option ν)} (h : Emits heap ks c ps ts c')
    (hall : ∀ a, c' a ≠ 0 → (heap a).Legal ∧ Writable (heap a)) :
    ∀ (xs : List (Bool × Slot)) (fuel : ℕ) (r r' : Reader) (rest : List UInt8),
      xs.length = ps.length → r.input = bytesOf swapflag ts ++ rest →
      breadAll swapflag fuel xs r = .ok r' → Consumed heap ks c c' r r' rest := by
  induction h with
  | nil =>
      intro xs fuel r r' rest hlen hinput hr
      obtain rfl := List.length_eq_zero_iff.mp hlen
      cases hr
      exact ⟨hinput, rfl, fun a ha ha' => absurd ha ha'⟩
  | @null c ps ts c' h ih =>
      intro xs fuel r r' rest hlen hinput hr
      obtain _ | ⟨x, xs⟩ := xs
      · cases hlen
      obtain ⟨flag, r1, hr1, hr⟩ := breadAll_cons_ok.mp hr
      obtain _ | fuel := fuel
      · cases hr1
      rw [localBread_nil hinput] at hr1
      cases hr1
      have hrest := ih hall xs _ _ r' rest (by simpa using hlen) (put_input _ _ _) hr
      refine ⟨hrest.input, hrest.reloc.trans (congrArg _ (put_reloc _ _ _)), ?_⟩
      have hnode := hrest.node
      rwa [put_reloc] at hnode
  | @ref c a ps ts c' hc ha h ih =>
      intro xs fuel r r' rest hlen hinput hr
      obtain _ | ⟨x, xs⟩ := xs
      · cases hlen
      obtain ⟨flag, r1, hr1, hr⟩ := breadAll_cons_ok.mp hr
      obtain _ | fuel := fuel
      · cases hr1
      have hkept : r1.input = bytesOf swapflag ts ++ rest ∧ r1.reloc.length = r.reloc.length := by
        cases hentry : r.reloc[ks.idxOf a % 16777216]? with
        | none =>
            rw [localBread_ref_error hinput hentry] at hr1
            cases hr1
        | some e =>
            rw [localBread_ref hinput hentry] at hr1
            split_ifs at hr1 <;> cases hr1
            · exact ⟨put_input _ _ _, congrArg _ (put_reloc _ _ _)⟩
            · refine ⟨put_input { r with input := bytesOf swapflag ts ++ rest } _ _, ?_⟩
              exact List.length_set.trans (congrArg _ (put_reloc _ _ _))
      have hrest := ih hall xs _ r1 r' rest (by simpa using hlen) hkept.1 hr
      refine ⟨hrest.input, hrest.reloc.trans hkept.2, fun b hb hb' => ?_⟩
      rw [← hkept.2]
      have hba : b ≠ a := fun hba => hc (hba ▸ hb)
      exact hrest.node b (by simpa [hba] using hb) hb'
  | @node c a ts c1 ps us c' hc h1 h2 ih1 ih2 =>
      intro xs fuel r r' rest hlen hinput hr
      have hpos' : ∀ b, c1 b ≠ 0 → c' b ≠ 0 := fun b hb =>
        (Nat.lt_of_lt_of_le (Nat.pos_of_ne_zero hb) (h2.le b)).ne'
      have hca : c1 a ≠ 0 := by
        have hone := h1.le a
        rw [bump_self] at hone
        omega
      obtain ⟨hlegal, hwritable⟩ := hall a (hpos' a hca)
      obtain _ | ⟨x, xs⟩ := xs
      · cases hlen
      obtain ⟨flag, r1, hr1, hr⟩ := breadAll_cons_ok.mp hr
      have hsplit : bytesOf swapflag (announce ks a ++ nodeToken (heap a) :: (ts ++ us)) ++ rest =
          bytesOf swapflag (announce ks a ++ nodeToken (heap a) :: ts) ++
            (bytesOf swapflag us ++ rest) := by simp
      rw [hsplit] at hinput
      have hhead := localBread_consumed hlegal hwritable
        (ih1 fun b hb => hall b (hpos' b hb)) hinput hr1
      exact hhead.trans (ih2 hall xs _ r1 r' rest (by simpa using hlen) hhead.input hr)

end Lush.LispArrays
