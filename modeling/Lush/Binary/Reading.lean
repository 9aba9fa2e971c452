import Lush.Binary.Emission
import Lush.Binary.Places

/-!
# The state of a read

When the writer has made the visits `c`, the reader that follows it is in a
state that three maps describe (`Ghost`): where the visited objects are, which
reference each place was read for, and which places are on the thread of each
object whose definition is not complete.  `Reading` says what holds of the cells
and of the relocation table.  The reader does five things, and each keeps it:

* `Reading.write`: a null pointer or a known object is stored;
* `Reading.thread`: a place joins the thread of an open object;
* `Reading.enter`: a new object is stored, and opened if it is relocated;
* `Reading.close`: a definition is completed, and its thread patched.
-/

namespace Lush.Binary

open Traversal

variable {ν : Type} [LinearOrder ν]

/-! ## The invariant -/

/-- The place of each visited object, the reference that each place was read
for, the objects being defined, and the threads of these. -/
structure Ghost (ν : Type) where
  place : ν → ℕ
  owner : Slot → Option (Option ν)
  opened : Finset ν
  chain : ν → List Slot

variable {heap : ν → Object (Option ν)} {ks : List ν} {c c' : ν → ℕ} {g g' : Ghost ν}
  {r r' : Reader} {pp : Slot}

/-- The relocation of an object. -/
def Ghost.entry (heap : ν → Object (Option ν)) (c : ν → ℕ) (g : Ghost ν) (a : ν) :
    Word × RelocFlag :=
  if c a = 0 ∨ heap a = .zombie then (.null, .empty)
  else if a ∈ g.opened then (link (g.chain a), if g.chain a = [] then .empty else .refd)
  else (.obj (g.place a), .defd)

/-- What the relocation of an object depends on; a zombie has none. -/
theorem Ghost.entry_congr {a : ν} (hc : heap a ≠ .zombie → (c' a = 0 ↔ c a = 0))
    (hopen : a ∈ g'.opened ↔ a ∈ g.opened) (hchain : g'.chain a = g.chain a)
    (hplace : g'.place a = g.place a) : g'.entry heap c' a = g.entry heap c a := by
  unfold Ghost.entry
  by_cases hz : heap a = .zombie
  · rw [if_pos (Or.inr hz), if_pos (Or.inr hz)]
  · by_cases ha : c a = 0
    · rw [if_pos (Or.inl ha), if_pos (Or.inl ((hc hz).mpr ha))]
    · have ha' : ¬c' a = 0 := (hc hz).not.mpr ha
      simp only [ha, ha', hz, or_self, if_false, hopen, hchain, hplace]

/-- The place `s` holds what the reference `q` is read as, or waits for it. -/
def Settled (heap : ν → Object (Option ν)) (c : ν → ℕ) (g : Ghost ν) (r : Reader) (s : Slot) :
    Option ν → Prop
  | none => r.get s = some .null
  | some b => (c b ≠ 0 ∧ heap b ≠ .zombie) ∧
      (r.get s = some (.obj (g.place b)) ∨ b ∈ g.opened ∧ s ∈ g.chain b)

/-- The state of a reader that follows a writer. -/
structure Reading (heap : ν → Object (Option ν)) (ks : List ν) (c : ν → ℕ) (g : Ghost ν)
    (r : Reader) : Prop where
  label : ∀ a, c a ≠ 0 → heap a ≠ .zombie →
    (r.cells[g.place a]?).map Object.label = some (heap a).label
  inj : ∀ a b, c a ≠ 0 → c b ≠ 0 → heap a ≠ .zombie → heap b ≠ .zombie →
    g.place a = g.place b → a = b ∨ ∃ name, (heap a).label = .symbol name
  settled : ∀ s q, g.owner s = some q → Settled heap c g r s q
  chained : ∀ a ∈ g.opened, ∀ s ∈ g.chain a, g.owner s = some (some a)
  threaded : ∀ a ∈ g.opened, Threaded r (g.chain a)
  nodup : ∀ a ∈ g.opened, (g.chain a).Nodup
  visited : ∀ a ∈ g.opened, c a ≠ 0 ∧ heap a ≠ .zombie
  table : r.reloc = ks.map (g.entry heap c)

/-- A place that was read for something exists. -/
theorem Reading.valid (h : Reading heap ks c g r) {s : Slot} {q : Option ν}
    (hs : g.owner s = some q) : r.Valid s := by
  have hsettled := h.settled s q hs
  cases q with
  | none => exact .of_get hsettled
  | some b =>
      rcases hsettled.2 with hget | ⟨hopen, hchain⟩
      · exact .of_get hget
      · exact (h.threaded b hopen).valid s hchain

omit [LinearOrder ν] in
/-- A settled place stays settled when the objects it depends on stay. -/
theorem Settled.mono {s : Slot} {q : Option ν} (h : Settled heap c g r s q)
    (hget : r'.get s = r.get s)
    (hseen : ∀ b, c b ≠ 0 → heap b ≠ .zombie → c' b ≠ 0 ∧ g'.place b = g.place b)
    (hchain : ∀ b, c b ≠ 0 → b ∈ g.opened → s ∈ g.chain b → b ∈ g'.opened ∧ s ∈ g'.chain b) :
    Settled heap c' g' r' s q := by
  cases q with
  | none => exact hget.trans h
  | some b =>
      obtain ⟨⟨hc, hz⟩, hor⟩ := h
      obtain ⟨hc', hplace⟩ := hseen b hc hz
      refine ⟨⟨hc', hz⟩, ?_⟩
      rcases hor with hobj | ⟨hopen, hmem⟩
      · exact Or.inl (by rw [hget, hobj, hplace])
      · exact Or.inr (hchain b hc hopen hmem)

/-- The relocation of an object, found at its rank. -/
theorem Reading.reloc_eq (h : Reading heap ks c g r) {a : ν} (ha : a ∈ ks) :
    r.reloc[ks.idxOf a]? = some (g.entry heap c a) := by
  rw [h.table, List.getElem?_map,
    List.getElem?_eq_getElem (List.idxOf_lt_length_of_mem ha), List.getElem_idxOf]
  rfl

/-- Changing the relocation of one object. -/
theorem set_map_idxOf {β : Type} {f f' : ν → β} (hnodup : ks.Nodup) {a : ν} (ha : a ∈ ks)
    (hf : ∀ b ∈ ks, b ≠ a → f' b = f b) :
    (ks.map f).set (ks.idxOf a) (f' a) = ks.map f' := by
  apply List.ext_getElem (by simp)
  intro i h1 h2
  have hi : i < ks.length := by simpa using h2
  rw [List.getElem_set]
  by_cases hia : ks.idxOf a = i
  · subst hia
    simp
  · have hne : ks[i] ≠ a := by
      rintro rfl
      exact hia (hnodup.idxOf_getElem i hi)
    simp [hia, hf _ (List.getElem_mem hi) hne]

/-! ## Stores -/

/-- The place `pp` is read for `q`. -/
def Ghost.own (g : Ghost ν) (pp : Slot) (q : Option ν) : Ghost ν :=
  { g with owner := Function.update g.owner pp (some q) }

omit [LinearOrder ν] in
theorem owner_ne {s : Slot} {q : Option ν} (hpp : g.owner pp = none) (hs : g.owner s = some q) :
    s ≠ pp := by
  rintro rfl
  simp [hpp] at hs

/-- **Storing** a null pointer, or an object that is complete or not. -/
theorem Reading.write (h : Reading heap ks c g r)
    (hc : ∀ b, heap b ≠ .zombie → (c' b = 0 ↔ c b = 0)) (hvalid : r.Valid pp)
    (hpp : g.owner pp = none) {q : Option ν} {w : Word}
    (hw : Settled heap c (g.own pp q) (r.put pp w) pp q) :
    Reading heap ks c' (g.own pp q) (r.put pp w) where
  label a ha hz := by
    rw [Reader.label_put]
    exact h.label a ((hc a hz).not.mp ha) hz
  inj a b ha hb hz hz' := h.inj a b ((hc a hz).not.mp ha) ((hc b hz').not.mp hb) hz hz'
  settled s q' hs := by
    by_cases hne : s = pp
    · subst hne
      have hq : q' = q := by
        simpa [Ghost.own, eq_comm] using hs
      subst hq
      exact hw.mono rfl (fun b hb hz => ⟨(hc b hz).not.mpr hb, rfl⟩) fun _ _ ho hm => ⟨ho, hm⟩
    · have hs' : g.owner s = some q' := by simpa [Ghost.own, hne] using hs
      exact (h.settled s q' hs').mono (Reader.get_put_ne (Ne.symm hne) w)
        (fun b hb hz => ⟨(hc b hz).not.mpr hb, rfl⟩) fun _ _ ho hm => ⟨ho, hm⟩
  chained a ha s hs := by
    have howner := h.chained a ha s hs
    simpa [Ghost.own, owner_ne hpp howner] using howner
  threaded a ha := (h.threaded a ha).congr fun s hs =>
    Reader.get_put_ne (owner_ne hpp (h.chained a ha s hs)).symm w
  nodup := h.nodup
  visited a ha :=
    ⟨(hc a (h.visited a ha).2).not.mpr (h.visited a ha).1, (h.visited a ha).2⟩
  table := by
    rw [Reader.put_reloc, h.table]
    exact List.map_congr_left fun b _ => (Ghost.entry_congr (hc b) Iff.rfl rfl rfl).symm

/-- The place `pp` joins the thread of `b`. -/
def Ghost.join (g : Ghost ν) (pp : Slot) (b : ν) : Ghost ν :=
  { g.own pp (some b) with chain := Function.update g.chain b (pp :: g.chain b) }

/-- **Threading** a place that waits for an object under construction. -/
theorem Reading.thread (h : Reading heap ks c g r) (hnodup : ks.Nodup)
    (hc : ∀ b, heap b ≠ .zombie → (c' b = 0 ↔ c b = 0)) (hvalid : r.Valid pp)
    (hpp : g.owner pp = none) {b : ν} (hb : b ∈ g.opened) (hks : b ∈ ks) :
    Reading heap ks c' (g.join pp b)
      ((r.put pp (link (g.chain b))).setReloc (ks.idxOf b) (.slot pp) .refd) where
  label a ha hz := by
    show (((r.put pp _).cells[_]?).map Object.label) = _
    rw [Reader.label_put]
    exact h.label a ((hc a hz).not.mp ha) hz
  inj a a' ha ha' hz hz' := h.inj a a' ((hc a hz).not.mp ha) ((hc a' hz').not.mp ha') hz hz'
  settled s q hs := by
    by_cases hne : s = pp
    · subst hne
      have hq : some b = q := by
        simpa [Ghost.join, Ghost.own] using hs
      subst hq
      obtain ⟨hcb, hz⟩ := h.visited b hb
      exact ⟨⟨(hc b hz).not.mpr hcb, hz⟩, Or.inr ⟨hb, by simp [Ghost.join]⟩⟩
    · have hs' : g.owner s = some q := by simpa [Ghost.join, Ghost.own, hne] using hs
      refine (h.settled s q hs').mono (Reader.get_put_ne (Ne.symm hne) _)
        (fun a ha hz => ⟨(hc a hz).not.mpr ha, rfl⟩) fun a _ ho hm => ⟨ho, ?_⟩
      by_cases hab : a = b
      · subst hab
        simp [Ghost.join, hm]
      · simpa [Ghost.join, hab] using hm
  chained a ha s hs := by
    by_cases hne : s = pp
    · subst hne
      by_cases hab : a = b
      · subst hab
        simp [Ghost.join, Ghost.own]
      · have hmem : s ∈ g.chain a := by simpa [Ghost.join, hab] using hs
        exact absurd rfl (owner_ne hpp (h.chained a ha s hmem))
    · have hmem : s ∈ g.chain a := by
        by_cases hab : a = b
        · subst hab
          simpa [Ghost.join, hne] using hs
        · simpa [Ghost.join, hab] using hs
      simpa [Ghost.join, Ghost.own, hne] using h.chained a ha s hmem
  threaded a ha := by
    have hold : Threaded (r.put pp (link (g.chain b))) (g.chain a) :=
      (h.threaded a ha).congr fun s hs =>
        Reader.get_put_ne (owner_ne hpp (h.chained a ha s hs)).symm _
    have hthread : Threaded (r.put pp (link (g.chain b))) ((g.join pp b).chain a) := by
      by_cases hab : a = b
      · subst hab
        simpa [Ghost.join, Threaded] using ⟨Reader.get_put_self hvalid _, hold⟩
      · simpa [Ghost.join, hab] using hold
    exact hthread.congr fun s _ => by cases s <;> rfl
  nodup a ha := by
    by_cases hab : a = b
    · subst hab
      have hnot : pp ∉ g.chain a := fun hmem => owner_ne hpp (h.chained a ha pp hmem) rfl
      simpa [Ghost.join, hnot] using h.nodup a ha
    · simpa [Ghost.join, hab] using h.nodup a ha
  visited a ha :=
    ⟨(hc a (h.visited a ha).2).not.mpr (h.visited a ha).1, (h.visited a ha).2⟩
  table := by
    obtain ⟨hcb, hz⟩ := h.visited b hb
    have hentry : (g.join pp b).entry heap c' b = (.slot pp, .refd) := by
      simp [Ghost.entry, Ghost.join, Ghost.own, hz, hb, (hc b hz).not.mpr hcb, link]
    show (r.put pp _).reloc.set _ _ = _
    rw [Reader.put_reloc, h.table, ← hentry]
    exact set_map_idxOf hnodup hks fun a _ hab =>
      Ghost.entry_congr (hc a) Iff.rfl (by simp [Ghost.join, hab]) rfl

/-! ## Definitions -/

/-- The object `a` is put at `n`, for the place `pp`, and opened if it is
relocated. -/
def Ghost.enter (g : Ghost ν) (ks : List ν) (a : ν) (n : ℕ) (pp : Slot) : Ghost ν where
  place := Function.update g.place a n
  owner := Function.update g.owner pp (some (some a))
  opened := if a ∈ ks then insert a g.opened else g.opened
  chain := Function.update g.chain a []

/-- What the reader does for a new object: `pp` gets the object `n`, which is a
new cell, or an older one if it is a symbol. -/
structure Made (r r' : Reader) (pp : Slot) (n : ℕ) (l : Object.Label) : Prop where
  self : r'.get pp = some (.obj n)
  frame : ∀ s, r.Valid s → s ≠ pp → r'.get s = r.get s
  older : ∀ m < r.cells.length,
    (r'.cells[m]?).map Object.label = (r.cells[m]?).map Object.label
  label : (r'.cells[n]?).map Object.label = some l
  isNew : r.cells.length ≤ n ∨ ∃ name, l = .symbol name
  reloc : r'.reloc = r.reloc

theorem Made.alloc (hvalid : r.Valid pp) (o : Object Word) :
    Made r (r.alloc pp o) pp r.cells.length o.label where
  self := Reader.get_alloc_self hvalid o
  frame _ hs hne := Reader.get_alloc_ne hs hne.symm o
  older _ hm := Reader.label_alloc_of_lt pp o hm
  label := Reader.label_alloc_new r pp o
  isNew := Or.inl le_rfl
  reloc := Reader.alloc_reloc r pp o

theorem Made.put (hvalid : r.Valid pp) {n : ℕ} {name : SymbolName}
    (hn : r.cells[n]? = some (.symbol name)) :
    Made r (r.put pp (.obj n)) pp n (.symbol name.bytes) where
  self := Reader.get_put_self hvalid _
  frame _ _ hne := Reader.get_put_ne hne.symm _
  older m _ := Reader.label_put r pp _ m
  label := by
    rw [Reader.label_put, hn]
    rfl
  isNew := Or.inr ⟨_, rfl⟩
  reloc := Reader.put_reloc r pp _

theorem Reading.place_lt (h : Reading heap ks c g r) {a : ν} (ha : c a ≠ 0)
    (hz : heap a ≠ .zombie) : g.place a < r.cells.length := by
  obtain ⟨o, ho, -⟩ := Option.map_eq_some_iff.mp (h.label a ha hz)
  exact (List.getElem?_eq_some_iff.mp ho).1

/-- **Entering** a new object. -/
theorem Reading.enter (h : Reading heap ks c g r) {a : ν} (hc : c a = 0) (hz : heap a ≠ .zombie)
    (hpp : g.owner pp = none) {n : ℕ} (hmade : Made r r' pp n (heap a).label) :
    Reading heap ks (bump c a) (g.enter ks a n pp) r' := by
  have hopen : ∀ {b}, b ∈ (g.enter ks a n pp).opened → b ≠ a → b ∈ g.opened := by
    intro b hb hba
    simp only [Ghost.enter] at hb
    split at hb
    · exact (Finset.mem_insert.mp hb).resolve_left hba
    · exact hb
  have hopen' : ∀ {b}, b ∈ g.opened → b ∈ (g.enter ks a n pp).opened := by
    intro b hb
    simp only [Ghost.enter]
    split
    · exact Finset.mem_insert_of_mem hb
    · exact hb
  have hold : ∀ {b}, c b ≠ 0 → b ≠ a := fun hb hba => hb (hba ▸ hc)
  have hchain : ∀ {b}, b ≠ a → (g.enter ks a n pp).chain b = g.chain b := by
    intro b hba
    simp [Ghost.enter, hba]
  have hplace : ∀ {b}, b ≠ a → (g.enter ks a n pp).place b = g.place b := by
    intro b hba
    simp [Ghost.enter, hba]
  have hnew : (g.enter ks a n pp).place a = n := by simp [Ghost.enter]
  have hframe : ∀ s q, g.owner s = some q → r'.get s = r.get s := fun s q hs =>
    hmade.frame s (h.valid hs) (owner_ne hpp hs)
  -- an object entered before sits at another place, unless it is the same symbol
  have hapart : ∀ b, b ≠ a → c b ≠ 0 → heap b ≠ .zombie → g.place b = n →
      (∃ name, (heap a).label = .symbol name) ∧ ∃ name, (heap b).label = .symbol name := by
    intro b _ hb hzb hbn
    have hlt := hbn ▸ h.place_lt hb hzb
    rcases hmade.isNew with hle | ⟨name, hname⟩
    · exact absurd hlt (Nat.not_lt.mpr hle)
    · have hlabel := hmade.label
      rw [hmade.older n hlt, ← hbn, h.label b hb hzb, Option.some.injEq] at hlabel
      exact ⟨⟨name, hname⟩, name, hlabel.trans hname⟩
  refine ⟨fun b hb hzb => ?_, fun b b' hb hb' hzb hzb' heq => ?_, fun s q hs => ?_,
    fun b hb s hs => ?_, fun b hb => ?_, fun b hb => ?_, fun b hb => ?_, ?_⟩
  · by_cases hba : b = a
    · subst hba
      rw [hnew, hmade.label]
    · have hcb : c b ≠ 0 := by simpa [hba] using hb
      rw [hplace hba, hmade.older _ (h.place_lt hcb hzb), h.label b hcb hzb]
  · by_cases hba : b = a <;> by_cases hba' : b' = a
    · exact Or.inl (hba.trans hba'.symm)
    · subst hba
      rw [hnew, hplace hba'] at heq
      exact Or.inr (hapart b' hba' (by simpa [hba'] using hb') hzb' heq.symm).1
    · subst hba'
      rw [hnew, hplace hba] at heq
      exact Or.inr (hapart b hba (by simpa [hba] using hb) hzb heq).2
    · rw [hplace hba, hplace hba'] at heq
      exact h.inj b b' (by simpa [hba] using hb) (by simpa [hba'] using hb') hzb hzb' heq
  · by_cases hne : s = pp
    · subst hne
      have hq : some a = q := by
        simpa [Ghost.enter] using hs
      subst hq
      exact ⟨⟨by simp, hz⟩, Or.inl (by rw [hmade.self, hnew])⟩
    · have hs' : g.owner s = some q := by simpa [Ghost.enter, hne] using hs
      refine (h.settled s q hs').mono (hframe s q hs')
        (fun b hb _ => ⟨by simp [hold hb, hb], hplace (hold hb)⟩) fun b hb ho hm => ?_
      exact ⟨hopen' ho, by rwa [hchain (hold hb)]⟩
  · by_cases hba : b = a
    · subst hba
      simp [Ghost.enter] at hs
    · rw [hchain hba] at hs
      have howner := h.chained b (hopen hb hba) s hs
      simpa [Ghost.enter, owner_ne hpp howner] using howner
  · by_cases hba : b = a
    · subst hba
      simp [Ghost.enter, Threaded]
    · rw [hchain hba]
      exact (h.threaded b (hopen hb hba)).congr fun s hs =>
        hframe s _ (h.chained b (hopen hb hba) s hs)
  · by_cases hba : b = a
    · subst hba
      simp [Ghost.enter]
    · rw [hchain hba]
      exact h.nodup b (hopen hb hba)
  · by_cases hba : b = a
    · subst hba
      exact ⟨by simp, hz⟩
    · have hvisited := h.visited b (hopen hb hba)
      exact ⟨by simpa [hba] using hvisited.1, hvisited.2⟩
  · rw [hmade.reloc, h.table]
    refine List.map_congr_left fun b hb => ?_
    by_cases hba : b = a
    · subst hba
      simp [Ghost.entry, hc, hz, Ghost.enter, hb, link]
    · refine (Ghost.entry_congr (fun _ => by simp [hba]) ⟨fun ho => hopen ho hba, hopen'⟩
        (hchain hba) (hplace hba)).symm

/-- The definition of `a` is complete. -/
def Ghost.close (g : Ghost ν) (a : ν) : Ghost ν :=
  { g with opened := g.opened.erase a }

/-- **Completing** a definition. -/
theorem Reading.close (h : Reading heap ks c g r) (hnodup : ks.Nodup) {a : ν}
    (ha : a ∈ g.opened) (hks : a ∈ ks)
    (hpatched : Patched (.obj (g.place a)) (g.chain a) r r') :
    Reading heap ks c (g.close a) (r'.setReloc (ks.idxOf a) (.obj (g.place a)) .defd) := by
  have hopen : ∀ {b}, b ∈ (g.close a).opened → b ∈ g.opened ∧ b ≠ a := fun hb =>
    ⟨Finset.mem_of_mem_erase hb, Finset.ne_of_mem_erase hb⟩
  -- places read for another reference are not on the thread
  have hoff : ∀ {s q}, g.owner s = some q → q ≠ some a → r'.get s = r.get s := fun hs hq =>
    hpatched.frame _ fun hmem => hq (Option.some.inj (hs.symm.trans (h.chained a ha _ hmem)))
  refine ⟨fun b hb hz => ?_, h.inj, fun s q hs => ?_, fun b hb => ?_, fun b hb => ?_,
    fun b hb => h.nodup b (hopen hb).1, fun b hb => h.visited b (hopen hb).1, ?_⟩
  · exact (hpatched.label _).trans (h.label b hb hz)
  · have hsettled := h.settled s q hs
    by_cases hq : q = some a
    · subst hq
      refine ⟨hsettled.1, Or.inl ?_⟩
      by_cases hmem : s ∈ g.chain a
      · exact hpatched.mem s hmem
      · exact (hpatched.frame s hmem).trans (hsettled.2.resolve_right fun hr => hmem hr.2)
    · refine hsettled.mono (hoff hs hq) (fun b hb _ => ⟨hb, rfl⟩) fun b _ ho hm => ⟨?_, hm⟩
      refine Finset.mem_erase.mpr ⟨?_, ho⟩
      rintro rfl
      exact hq (Option.some.inj (hs.symm.trans (h.chained b ho s hm)))
  · exact h.chained b (hopen hb).1
  · refine (h.threaded b (hopen hb).1).congr fun s hs => ?_
    exact hoff (h.chained b (hopen hb).1 s hs) fun heq => (hopen hb).2 (Option.some.inj heq)
  · obtain ⟨hca, hz⟩ := h.visited a ha
    have hentry : (g.close a).entry heap c a = (.obj (g.place a), .defd) := by
      simp [Ghost.entry, Ghost.close, hca, hz]
    show r'.reloc.set _ _ = _
    rw [hpatched.reloc, h.table, ← hentry]
    refine set_map_idxOf hnodup hks fun b _ hba => ?_
    exact Ghost.entry_congr (fun _ => Iff.rfl) (by simp [Ghost.close, hba]) rfl rfl

end Lush.Binary
