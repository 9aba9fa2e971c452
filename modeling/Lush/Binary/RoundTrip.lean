import Lush.Binary.Reading

/-!
# Reading back what was written

The reader follows the emission of the tokens, by induction on `Emits`: each
reference read keeps `Reading` and settles its place (`localBread_emits`).
-/

namespace Lush.Binary

open Traversal

variable {ν : Type} [LinearOrder ν]

variable {heap : ν → Object (Option ν)} {ks : List ν} {c c' : ν → ℕ} {g g' : Ghost ν}
  {r r' : Reader} {pp : Slot}

/-! ## One token -/

section Tokens

variable {swapflag : Bool} {fuel : ℕ} {ret : Bool} {rest : List UInt8}

theorem localBread_nil (hinput : r.input = bytesOf swapflag [.nil] ++ rest) :
    localBread swapflag (fuel + 1) ret pp r = .ok (false, { r with input := rest }.put pp .null) := by
  simp [localBread, hinput, Token.bytes, Bind.bind, Except.bind]

theorem localBread_ref {k : ℕ} (hk : k < 16777216)
    (hinput : r.input = bytesOf swapflag [.ref k] ++ rest) {w : Word} {f : RelocFlag}
    (hreloc : r.reloc[k]? = some (w, f)) :
    localBread swapflag (fuel + 1) ret pp r =
      if f = .defd then .ok (false, { r with input := rest }.put pp w)
      else .ok (ret, ({ r with input := rest }.put pp w).setReloc k (.slot pp) .refd) := by
  simp [localBread, hinput, Token.bytes, Bind.bind, Except.bind, hk, hreloc]

theorem localBread_cons {ts : List Token} (hinput : r.input = bytesOf swapflag (.cons :: ts) ++ rest) :
    localBread swapflag (fuel + 1) ret pp r = (do
      let r := { r with input := bytesOf swapflag ts ++ rest }
      let (_, r') ← localBread swapflag fuel true (.field r.cells.length .car)
        (r.alloc pp (.cons .null .null))
      localBread swapflag fuel false (.field r.cells.length .cdr) r') := by
  simp [localBread, hinput, Token.bytes, Bind.bind, Except.bind]

/-- The definition of an object around the object itself. -/
theorem localBread_defn {k : ℕ} (hk : k < 16777216) {ts : List Token}
    (hinput : r.input = bytesOf swapflag (.defn k :: ts) ++ rest)
    (hbody : localBread swapflag fuel true pp { r with input := bytesOf swapflag ts ++ rest } =
      .ok (false, r')) {h : Word} {f : RelocFlag} (hreloc : r'.reloc[k]? = some (h, f))
    (hf : f ≠ .defd) {p : Word} (hp : r'.get pp = some p) :
    localBread swapflag (fuel + 1) ret pp r = (do
      let r ← if f = .refd then defineRefdReloc p (2 * r'.cells.length + 2) h r' else .ok r'
      let p ← r.deref pp
      .ok (false, r.setReloc k p .defd)) := by
  simp only [localBread, hinput, bytesOf_cons, Token.bytes, List.cons_append, List.append_assoc,
    readCard8_cons, readCard24_card24 hk, Bind.bind, Except.bind]
  simp only [UInt8.reduceToNat, hbody, hreloc, hf, Reader.deref, hp, if_false, Bool.false_eq_true]

/-- Objects within the limits of the reader. -/
def Readable {ρ : Type} : Object ρ → Prop
  | .string s => s.bytes.length < 16777216
  | .symbol name => name.bytes.length < stringBuffer
  | _ => True

/-- Looking up a symbol, or making it. -/
theorem named_ok (hvalid : r.Valid pp) (name : SymbolName) :
    ∃ r' n, named r pp name.toCString = .ok r' ∧ r'.input = r.input ∧
      Made r r' pp n (.symbol name.bytes) := by
  unfold named
  rw [dif_pos name.unreserved]
  cases hfind : r.cells.findIdx? fun o => o = .symbol name with
  | none =>
      exact ⟨_, _, rfl, Reader.alloc_input _ _ _, .alloc hvalid (.symbol name)⟩
  | some n =>
      obtain ⟨hlt, hname, -⟩ := List.findIdx?_eq_some_iff_getElem.mp hfind
      have hn : r.cells[n]? = some (.symbol name) := by
        rw [List.getElem?_eq_getElem hlt]
        simpa using hname
      exact ⟨_, n, rfl, Reader.put_input _ _ _, .put hvalid hn⟩

omit [LinearOrder ν] in
/-- An object without references. -/
theorem localBread_leaf {o : Object (Option ν)} {t : Token} (ht : leafToken o = some t)
    (hreadable : Readable o) (hvalid : r.Valid pp)
    (hinput : r.input = bytesOf swapflag [t] ++ rest) :
    ∃ r' n, localBread swapflag (fuel + 1) ret pp r = .ok (false, r') ∧ r'.input = rest ∧
      Made { r with input := rest } r' pp n o.label := by
  cases o with
  | cons car cdr => simp [leafToken] at ht
  | zombie => simp [leafToken] at ht
  | number x =>
      cases ht
      have hbuffer : readBuffer 8 (swapBuffer swapflag (memory swapflag x) ++ rest) =
          .ok (swapBuffer swapflag (memory swapflag x), rest) := by
        have := readBuffer_append (swapBuffer swapflag (memory swapflag x)) rest
        rwa [length_swapBuffer, length_memory] at this
      refine ⟨{ r with input := rest }.alloc pp (.number x), r.cells.length, ?_,
        Reader.alloc_input _ _ _, ?_⟩
      · simp [localBread, hinput, Token.bytes, Bind.bind, Except.bind, hbuffer]
      · exact Made.alloc (r := { r with input := rest }) hvalid (.number x)
  | string s =>
      cases ht
      refine ⟨{ r with input := rest }.alloc pp (.string s), r.cells.length, ?_,
        Reader.alloc_input _ _ _, ?_⟩
      · have hlength : s.bytes.length < 16777216 := hreadable
        simp [localBread, hinput, Token.bytes, Bind.bind, Except.bind, hlength]
      · exact Made.alloc (r := { r with input := rest }) hvalid (.string s)
  | symbol name =>
      cases ht
      obtain ⟨r', n, hnamed, hr', hmade⟩ :=
        named_ok (r := { r with input := rest }) hvalid name
      refine ⟨r', n, ?_, hr', hmade⟩
      have hlength : name.bytes.length < stringBuffer := hreadable
      have hlength' : name.bytes.length < 16777216 := hlength.trans (by decide)
      simp [localBread, hinput, Token.bytes, Bind.bind, Except.bind, hlength', hnamed,
        Nat.not_le.mpr hlength]

end Tokens

/-! ## What a read leaves in place -/

omit [LinearOrder ν] in
theorem Settled.withInput {s : Slot} {q : Option ν} (h : Settled heap c g r s q)
    (input : List UInt8) : Settled heap c g { r with input } s q :=
  h.mono rfl (fun _ hb _ => ⟨hb, rfl⟩) fun _ _ ho hm => ⟨ho, hm⟩

theorem Reading.withInput (h : Reading heap ks c g r) (input : List UInt8) :
    Reading heap ks c g { r with input } :=
  ⟨h.label, h.inj, fun s q hs => (h.settled s q hs).withInput input, h.chained,
    fun a ha => (h.threaded a ha).congr fun _ _ => rfl, h.nodup, h.visited, h.table⟩

/-- Reading something into `pp` adds to what was read before. -/
structure Extends (heap : ν → Object (Option ν)) (c : ν → ℕ) (g g' : Ghost ν) (r r' : Reader)
    (pp : Slot) : Prop where
  place : ∀ a, c a ≠ 0 → heap a ≠ .zombie → g'.place a = g.place a
  keep : ∀ s q, g.owner s = some q → g'.owner s = some q
  fresh : ∀ s, s ≠ pp → r.Valid s → g.owner s = none → g'.owner s = none
  valid : ∀ s, r.Valid s → r'.Valid s
  frame : ∀ s n, s ≠ pp → r.get s = some (.obj n) → r'.get s = some (.obj n)

namespace Extends

omit [LinearOrder ν] in
/-- The place `pp` is stored to. -/
theorem store {q : Option ν} (hplace : ∀ a, c a ≠ 0 → heap a ≠ .zombie → g'.place a = g.place a)
    (howner : g'.owner = Function.update g.owner pp (some q)) (hpp : g.owner pp = none)
    (hself : r'.Valid pp) (hget : ∀ s, r.Valid s → s ≠ pp → r'.get s = r.get s) :
    Extends heap c g g' r r' pp where
  place := hplace
  keep s q' hs := by
    rw [howner, Function.update_of_ne (owner_ne hpp hs), hs]
  fresh s hne _ hs := by
    rw [howner, Function.update_of_ne hne, hs]
  valid s hs := by
    by_cases hne : s = pp
    · subst hne
      exact hself
    · rwa [Reader.Valid, hget s hs hne]
  frame s n hne hs := (hget s (.of_get hs) hne).trans hs

omit [LinearOrder ν] in
/-- A place of a cell that was not there before comes next. -/
theorem trans {g1 : Ghost ν} {r1 : Reader} {pp' : Slot} (h : Extends heap c g g1 r r1 pp)
    (h' : Extends heap c' g1 g' r1 r' pp') (hc : ∀ a, c a ≠ 0 → c' a ≠ 0) (hpp' : ¬r.Valid pp') :
    Extends heap c g g' r r' pp := by
  have hne : ∀ {s}, r.Valid s → s ≠ pp' := fun hs heq => hpp' (heq ▸ hs)
  exact {
    place := fun a ha hz => (h'.place a (hc a ha) hz).trans (h.place a ha hz)
    keep := fun s q hs => h'.keep s q (h.keep s q hs)
    fresh := fun s hs hvalid hnone =>
      h'.fresh s (hne hvalid) (h.valid s hvalid) (h.fresh s hs hvalid hnone)
    valid := fun s hs => h'.valid s (h.valid s hs)
    frame := fun s n hs hget => h'.frame s n (hne (.of_get hget)) (h.frame s n hs hget) }

end Extends

/-- All fields of the cells entered between two counters have been read. -/
def Full (heap : ν → Object (Option ν)) (c c' : ν → ℕ) (g : Ghost ν) : Prop :=
  ∀ a, c a = 0 → c' a ≠ 0 → ∀ x q, (heap a).field x = some q →
    g.owner (.field (g.place a) x) = some (alive heap q)

/-- The result of reading a reference `p` into `pp`, when the emission goes from
`c` to `c'`. -/
structure Result (heap : ν → Object (Option ν)) (ks : List ν) (c c' : ν → ℕ) (p : Option ν)
    (g g' : Ghost ν) (r r' : Reader) (pp : Slot) : Prop where
  reading : Reading heap ks c' g' r'
  ext : Extends heap c g g' r r' pp
  mine : g'.owner pp = some (alive heap p)
  full : Full heap c c' g'
  opened : g'.opened = g.opened

/-- The tokens `ts` are read as the reference `p`. -/
def Reads (swapflag : Bool) (heap : ν → Object (Option ν)) (ks : List ν) (c c' : ν → ℕ)
    (p : Option ν) (ts : List Token) : Prop :=
  ∀ g r pp ret fuel rest, Reading heap ks c g r → r.Valid pp → g.owner pp = none →
    ts.length < fuel → r.input = bytesOf swapflag ts ++ rest →
    ∃ flag g' r', localBread swapflag fuel ret pp r = .ok (flag, r') ∧ r'.input = rest ∧
      Result heap ks c c' p g g' r r' pp ∧ (flag = true → ret = true ∧ ∃ k, ts = [.ref k])

/-- The tokens `ts` are read as the object `a`, which stays open if it is
relocated. -/
def ReadsObject (swapflag : Bool) (heap : ν → Object (Option ν)) (ks : List ν) (c c' : ν → ℕ)
    (a : ν) (ts : List Token) : Prop :=
  ∀ g r pp ret fuel rest, Reading heap ks c g r → r.Valid pp → g.owner pp = none →
    ts.length < fuel → r.input = bytesOf swapflag ts ++ rest →
    ∃ g' r', localBread swapflag fuel ret pp r = .ok (false, r') ∧ r'.input = rest ∧
      Reading heap ks c' g' r' ∧ Extends heap c g g' r r' pp ∧ g'.owner pp = some (some a) ∧
      Full heap c c' g' ∧ g'.opened = (if a ∈ ks then insert a g.opened else g.opened) ∧
      r'.get pp = some (.obj (g'.place a))

/-- No place of a thread holds an object. -/
theorem Threaded.get_ne {ss : List Slot} (h : Threaded r ss) {s : Slot} (hs : s ∈ ss) (n : ℕ) :
    r.get s ≠ some (.obj n) := by
  induction ss with
  | nil => simp at hs
  | cons s' ss ih =>
      rcases List.mem_cons.mp hs with rfl | hs
      · rw [h.1]
        cases ss <;> simp [link]
      · exact ih h.2 hs

/-- **The definition around an object** closes it, and patches its thread. -/
theorem ReadsObject.announce {swapflag : Bool} {a : ν} {ts : List Token} (hnodup : ks.Nodup)
    (hks : ks.length ≤ 16777216) (hz : heap a ≠ .zombie) (hc : c a = 0) (hc' : c' a ≠ 0)
    (h : ReadsObject swapflag heap ks c c' a ts) :
    Reads swapflag heap ks c c' (some a) (announce ks a ++ ts) := by
  intro g r pp ret fuel rest hreading hvalid hpp hfuel hinput
  have halive : alive heap (some a) = some a := if_neg hz
  by_cases ha : a ∈ ks
  · obtain ⟨fuel, rfl⟩ : ∃ k, fuel = k + 1 := ⟨fuel - 1, by omega⟩
    have hann : Lush.Binary.announce ks a = [.defn (ks.idxOf a)] := if_pos ha
    rw [hann] at hinput hfuel
    obtain ⟨g1, r1, hr1, hinput1, hreading1, hext, hmine, hfull, hopened, hget⟩ :=
      h g { r with input := bytesOf swapflag ts ++ rest } pp true fuel rest
        (hreading.withInput _) hvalid hpp (by simpa using hfuel) rfl
    rw [if_pos ha] at hopened
    have hmem : a ∈ g1.opened := by simp [hopened]
    have hentry : r1.reloc[ks.idxOf a]? =
        some (link (g1.chain a), if g1.chain a = [] then .empty else .refd) := by
      rw [hreading1.reloc_eq ha]
      simp [Ghost.entry, hc', hz, hmem]
    -- the thread of the object is patched, if there is one
    have hthread := hreading1.threaded a hmem
    have hrounds : (g1.chain a).length < 2 * r1.cells.length + 2 :=
      Nat.lt_succ_of_le (Reader.length_le_of_valid (hreading1.nodup a hmem) hthread.valid)
    obtain ⟨r2, hr2, hpatched⟩ := defineRefdReloc_ok (.obj (g1.place a)) _ _ r1 hthread
      (hreading1.nodup a hmem) hrounds
    have hget2 : r2.get pp = some (.obj (g1.place a)) := by
      rw [hpatched.frame pp fun hmem' => hthread.get_ne hmem' _ hget, hget]
    refine ⟨false, g1.close a, r2.setReloc (ks.idxOf a) (.obj (g1.place a)) .defd, ?_,
      hpatched.input.trans hinput1, ⟨hreading1.close hnodup hmem ha hpatched, ?_,
      halive.symm ▸ hmine, hfull, ?_⟩, by simp⟩
    · have hidx : ks.idxOf a < 16777216 := (List.idxOf_lt_length_of_mem ha).trans_le hks
      rw [localBread_defn hidx hinput hr1 hentry (by split <;> simp) hget]
      by_cases hnil : g1.chain a = []
      · -- an empty thread is not patched at all
        rw [hnil] at hr2
        have hr12 : r1 = r2 := by simpa [link, defineRefdReloc] using hr2
        subst hr12
        simp [hnil, Bind.bind, Except.bind, Reader.deref, hget]
      · simp [hnil, Bind.bind, Except.bind, Reader.deref, hr2, hget2]
    · refine ⟨hext.place, hext.keep, hext.fresh, fun s hs => ?_, fun s n hne hs => ?_⟩
      · show r2.Valid s
        by_cases hs' : s ∈ g1.chain a
        · exact .of_get (hpatched.mem s hs')
        · rw [Reader.Valid, hpatched.frame s hs']
          exact hext.valid s hs
      · have hs1 := hext.frame s n hne hs
        exact (hpatched.frame s fun hmem' => hthread.get_ne hmem' _ hs1).trans hs1
    · have hnot : a ∉ g.opened := fun hmem' => (hreading.visited a hmem').1 hc
      simp [Ghost.close, hopened, hnot]
  · have hann : Lush.Binary.announce ks a = [] := if_neg ha
    rw [hann, List.nil_append] at hinput hfuel
    obtain ⟨g1, r1, hr1, hinput1, hreading1, hext, hmine, hfull, hopened, hget⟩ :=
      h g r pp ret fuel rest hreading hvalid hpp hfuel hinput
    rw [if_neg ha] at hopened
    exact ⟨false, g1, r1, hr1, hinput1, ⟨hreading1, hext, halive.symm ▸ hmine, hfull, hopened⟩,
      by simp⟩

/-! ## Objects -/

/-- An object without references is read. -/
theorem readsObject_leaf (swapflag : Bool) {a : ν} {t : Token} (hc : c a = 0)
    (ht : leafToken (heap a) = some t) (hreadable : Readable (heap a)) :
    ReadsObject swapflag heap ks c (bump c a) a [t] := by
  intro g r pp ret fuel rest hreading hvalid hpp hfuel hinput
  obtain ⟨fuel, rfl⟩ : ∃ k, fuel = k + 1 := ⟨fuel - 1, by omega⟩
  have hz : heap a ≠ .zombie := fun hz => by simp [hz, leafToken] at ht
  have hleaf : ∀ x, (heap a).field x = none := by
    intro x
    cases ho : heap a <;> first | rfl | simp [ho, leafToken] at ht
  obtain ⟨r', n, hr', hinput', hmade⟩ : ∃ r' n,
      localBread swapflag (fuel + 1) ret pp r = .ok (false, r') ∧ r'.input = rest ∧
        Made { r with input := rest } r' pp n (heap a).label :=
    localBread_leaf ht hreadable hvalid hinput
  have hplace : (g.enter ks a n pp).place a = n := by simp [Ghost.enter]
  refine ⟨g.enter ks a n pp, r', hr', hinput', (hreading.withInput rest).enter hc hz hpp hmade,
    .store (fun b hb _ => ?_) rfl hpp (.of_get hmade.self) hmade.frame, by simp [Ghost.enter],
    fun b hb hb' x q hx => ?_, rfl, by rw [hmade.self, hplace]⟩
  · have hba : b ≠ a := fun hba => hb (hba ▸ hc)
    simp [Ghost.enter, hba]
  · have hba : b = a := by
      by_contra hba
      exact hb' (by simpa [hba] using hb)
    rw [hba, hleaf] at hx
    cases hx

/-- A cons cell is read if its fields are. -/
theorem readsObject_cons {swapflag : Bool} {a : ν} {car cdr : Option ν} {ts us : List Token}
    {c1 c2 : ν → ℕ} (hc : c a = 0) (ha : heap a = .cons car cdr)
    (hc1 : ∀ b, bump c a b ≤ c1 b)
    (hcar : Reads swapflag heap ks (bump c a) c1 car ts)
    (hcdr : Reads swapflag heap ks c1 c2 cdr us) :
    ReadsObject swapflag heap ks c c2 a (.cons :: (ts ++ us)) := by
  intro g r pp ret fuel rest hreading hvalid hpp hfuel hinput
  obtain ⟨fuel, rfl⟩ : ∃ k, fuel = k + 1 := ⟨fuel - 1, by omega⟩
  simp only [List.length_cons, List.length_append] at hfuel
  have hz : heap a ≠ .zombie := by simp [ha]
  set r0 : Reader := { r with input := bytesOf swapflag (ts ++ us) ++ rest } with hr0
  set n := r0.cells.length with hn
  have hvalid0 : r0.Valid pp := hvalid
  have hreading0 : Reading heap ks c g r0 := hreading.withInput _
  -- the new cell
  have hmade : Made r0 (r0.alloc pp (.cons .null .null)) pp n (heap a).label := by
    rw [ha]
    exact Made.alloc hvalid0 _
  set g1 := g.enter ks a n pp with hg1
  set r1 := r0.alloc pp (.cons .null .null) with hr1
  have hreading1 : Reading heap ks (bump c a) g1 r1 := hreading0.enter hc hz hpp hmade
  have hext1 : Extends heap c g g1 r0 r1 pp := by
    refine .store (fun b hb _ => ?_) rfl hpp (.of_get hmade.self) hmade.frame
    have hba : b ≠ a := fun hba => hb (hba ▸ hc)
    simp [hg1, Ghost.enter, hba]
  have hnew : ∀ x, ¬r0.Valid (.field n x) := by
    intro x hx
    simp [Reader.Valid, Reader.get, hn] at hx
  have hnone : ∀ x, g1.owner (.field n x) = none := by
    intro x
    have hne : .field n x ≠ pp := fun h => hnew x (h ▸ hvalid0)
    cases howner : g.owner (.field n x) with
    | none => simp [hg1, Ghost.enter, hne, howner]
    | some q => exact absurd (hreading0.valid howner) (hnew x)
  have hfield : ∀ x, r1.Valid (.field n x) := by
    intro x
    have hget := Reader.get_alloc_new hvalid0 (.cons .null .null) x
    cases x <;> exact .of_get hget
  -- its car
  obtain ⟨flag, g2, r2, hr2, hinput2, hres2, -⟩ := hcar g1 r1 (.field n .car) true fuel
    (bytesOf swapflag us ++ rest) hreading1 (hfield .car) (hnone .car) (by omega)
    (by simp [hr1, hr0, Reader.alloc_input])
  have hnone2 : g2.owner (.field n .cdr) = none :=
    hres2.ext.fresh _ (by simp) (hfield .cdr) (hnone .cdr)
  -- its cdr
  obtain ⟨flag', g3, r3, hr3, hinput3, hres3, hflag'⟩ := hcdr g2 r2 (.field n .cdr) false fuel
    rest hres2.reading (hres2.ext.valid _ (hfield .cdr)) hnone2 (by omega) hinput2
  have hfalse : flag' = false := by
    cases flag' with
    | false => rfl
    | true => exact absurd (hflag' rfl).1 (by simp)
  have hpos : ∀ b, c b ≠ 0 → bump c a b ≠ 0 := fun b hb =>
    Nat.pos_iff_ne_zero.mp (Nat.lt_of_lt_of_le (Nat.pos_of_ne_zero hb) (le_bump c a b))
  have hpos1 : ∀ b, bump c a b ≠ 0 → c1 b ≠ 0 := fun b hb =>
    Nat.pos_iff_ne_zero.mp (Nat.lt_of_lt_of_le (Nat.pos_of_ne_zero hb) (hc1 b))
  have hext2 : Extends heap c g g2 r0 r2 pp := hext1.trans hres2.ext hpos (hnew .car)
  have hext3 : Extends heap c g g3 r0 r3 pp :=
    hext2.trans hres3.ext (fun b hb => hpos1 b (hpos b hb)) (hnew .cdr)
  have hplace1 : g1.place a = n := by simp [hg1, Ghost.enter]
  have hplace2 : g2.place a = n := (hres2.ext.place a (by simp) hz).trans hplace1
  have hplace3 : g3.place a = n := (hres3.ext.place a (hpos1 a (by simp)) hz).trans hplace2
  have hne : ∀ x, .field n x ≠ pp := fun x h => hnew x (h ▸ hvalid0)
  have hmine : g3.owner pp = some (some a) := by
    refine hres3.ext.keep _ _ (hres2.ext.keep _ _ ?_)
    simp [hg1, Ghost.enter]
  refine ⟨g3, r3, ?_, hinput3, hres3.reading, ⟨hext3.place, hext3.keep, hext3.fresh,
    hext3.valid, hext3.frame⟩, hmine, ?_, ?_, ?_⟩
  · rw [localBread_cons (show r.input = bytesOf swapflag (.cons :: (ts ++ us)) ++ rest from hinput)]
    show (localBread swapflag fuel true (.field n .car) r1 >>= fun x =>
      localBread swapflag fuel false (.field n .cdr) x.2) = _
    rw [hr2]
    show localBread swapflag fuel false (.field n .cdr) r2 = _
    rw [hr3, hfalse]
  · intro b hb hb' x q hx
    by_cases hba : b = a
    · subst hba
      rw [hplace3]
      rw [ha] at hx
      cases x with
      | car =>
          cases hx
          exact hres3.ext.keep _ _ hres2.mine
      | cdr =>
          cases hx
          exact hres3.mine
    · have hbump : bump c a b = 0 := by simpa [hba] using hb
      by_cases hb1 : c1 b = 0
      · exact hres3.full b hb1 hb' x q hx
      · have hfull := hres3.ext.keep _ _ (hres2.full b hbump hb1 x q hx)
        have hzb : heap b ≠ .zombie := fun hzb => by simp [hzb, Object.field] at hx
        rwa [hres3.ext.place b hb1 hzb]
  · rw [hres3.opened, hres2.opened]
    rfl
  · rw [hplace3]
    refine hres3.ext.frame pp n (hne .cdr).symm (hres2.ext.frame pp n (hne .car).symm ?_)
    exact hmade.self

/-! ## References -/

/-- Visits of objects that were visited before, and of zombies, enter no cell. -/
theorem full_of_iff (hc : ∀ b, heap b ≠ .zombie → (c' b = 0 ↔ c b = 0)) :
    Full heap c c' g := by
  intro b hb hb' x q hx
  have hz : heap b ≠ .zombie := fun hz => by simp [hz, Object.field] at hx
  exact absurd ((hc b hz).mpr hb) hb'

/-- `TOK_NIL` is read for a null pointer, and for a zombie. -/
theorem reads_nil (swapflag : Bool) {p : Option ν} (hp : alive heap p = none)
    (hc : ∀ b, heap b ≠ .zombie → (c' b = 0 ↔ c b = 0)) :
    Reads swapflag heap ks c c' p [.nil] := by
  intro g r pp ret fuel rest hreading hvalid hpp hfuel hinput
  obtain ⟨fuel, rfl⟩ : ∃ k, fuel = k + 1 := ⟨fuel - 1, by omega⟩
  have hself := Reader.get_put_self (r := { r with input := rest }) hvalid .null
  have hwrite := (hreading.withInput rest).write hc hvalid hpp (q := none) (w := .null) hself
  refine ⟨false, g.own pp none, _, localBread_nil hinput, Reader.put_input _ _ _, ⟨hwrite, ?_,
    by simp [Ghost.own, hp], full_of_iff hc, rfl⟩, by simp⟩
  exact .store (fun _ _ _ => rfl) rfl hpp (.of_get hself) fun s _ hne =>
    Reader.get_put_ne hne.symm _

/-- `TOK_REF` is read for an object that was met before: its place is known, or
`pp` joins the thread. -/
theorem reads_ref (swapflag : Bool) (hnodup : ks.Nodup) (hks : ks.length ≤ 16777216) {a : ν}
    (hz : heap a ≠ .zombie) (hc : c a ≠ 0) (ha : a ∈ ks) :
    Reads swapflag heap ks c (bump c a) (some a) [.ref (ks.idxOf a)] := by
  intro g r pp ret fuel rest hreading hvalid hpp hfuel hinput
  obtain ⟨fuel, rfl⟩ : ∃ k, fuel = k + 1 := ⟨fuel - 1, by omega⟩
  have hidx : ks.idxOf a < 16777216 := (List.idxOf_lt_length_of_mem ha).trans_le hks
  have hiff : ∀ b, heap b ≠ .zombie → (bump c a b = 0 ↔ c b = 0) := by
    intro b _
    by_cases hba : b = a
    · subst hba
      simp [hc]
    · simp [hba]
  have halive : alive heap (some a) = some a := if_neg hz
  set r0 : Reader := { r with input := rest }
  have hreading0 : Reading heap ks c g r0 := hreading.withInput rest
  have hget : ∀ w, (r0.put pp w).get pp = some w := Reader.get_put_self hvalid
  by_cases hopen : a ∈ g.opened
  · have hentry : r.reloc[ks.idxOf a]? =
        some (link (g.chain a), if g.chain a = [] then .empty else .refd) := by
      rw [hreading.reloc_eq ha]
      simp [Ghost.entry, hc, hz, hopen]
    refine ⟨ret, g.join pp a, (r0.put pp (link (g.chain a))).setReloc _ _ _, ?_,
      Reader.put_input r0 pp _, ⟨hreading0.thread hnodup hiff hvalid hpp hopen ha, ?_,
      by simp [Ghost.join, Ghost.own, halive], full_of_iff hiff, rfl⟩,
      fun hret => ⟨hret, _, rfl⟩⟩
    · rw [localBread_ref hidx hinput hentry, if_neg (by split <;> simp)]
    · refine .store (fun _ _ _ => rfl) rfl hpp (.of_get (hget _)) fun s _ hne => ?_
      exact Reader.get_put_ne (Ne.symm hne) _
  · have hentry : r.reloc[ks.idxOf a]? = some (.obj (g.place a), .defd) := by
      rw [hreading.reloc_eq ha]
      simp [Ghost.entry, hc, hz, hopen]
    have hwrite : Reading heap ks (bump c a) (g.own pp (some a)) (r0.put pp (.obj (g.place a))) :=
      hreading0.write hiff hvalid hpp ⟨⟨hc, hz⟩, Or.inl (hget _)⟩
    refine ⟨false, g.own pp (some a), _, ?_, Reader.put_input r0 pp _,
      ⟨hwrite, ?_, by simp [Ghost.own, halive], full_of_iff hiff, rfl⟩, by simp⟩
    · rw [localBread_ref hidx hinput hentry, if_pos rfl]
    · refine .store (fun _ _ _ => rfl) rfl hpp (.of_get (hget _)) fun s _ hne => ?_
      exact Reader.get_put_ne (Ne.symm hne) _

/-! ## The whole emission -/

/-- **The reader follows the writer.** -/
theorem reads_of_emits (swapflag : Bool) (hnodup : ks.Nodup) (hks : ks.length ≤ 16777216)
    {p : Option ν} {ts : List Token} (h : Emits heap ks c p ts c')
    (hreadable : ∀ a, c' a ≠ 0 → Readable (heap a)) : Reads swapflag heap ks c c' p ts := by
  induction h with
  | null => exact reads_nil swapflag rfl fun _ _ => Iff.rfl
  | @zombie c a hz =>
      refine reads_nil swapflag (by simp [alive, hz]) fun b hb => ?_
      have hba : b ≠ a := fun hba => hb (hba ▸ hz)
      simp [hba]
  | ref hz hc ha => exact reads_ref swapflag hnodup hks hz hc ha
  | @leaf c a t hc ht =>
      have hz : heap a ≠ .zombie := fun hz => by simp [hz, leafToken] at ht
      exact (readsObject_leaf swapflag hc ht (hreadable a (by simp))).announce hnodup hks hz hc
        (by simp)
  | @cons c a car cdr ts us c1 c2 hc ha h1 h2 ih1 ih2 =>
      have hpos : ∀ b, c1 b ≠ 0 → c2 b ≠ 0 := fun b hb =>
        Nat.pos_iff_ne_zero.mp (Nat.lt_of_lt_of_le (Nat.pos_of_ne_zero hb) (h2.le b))
      have hca : c2 a ≠ 0 := hpos a fun h0 => by
        have := h1.le a
        simp [h0] at this
      exact (readsObject_cons hc ha h1.le (ih1 fun b hb => hreadable b (hpos b hb))
        (ih2 hreadable)).announce hnodup hks (by simp [ha]) hc hca

/-! ## The graph that was read -/

/-- The word a field was read as, when no definition is open. -/
theorem Reading.get_eq (h : Reading heap ks c g r) (hopened : g.opened = ∅) {s : Slot}
    {q : Option ν} (hs : g.owner s = some q) :
    r.get s = some (Word.ofRef (q.map g.place)) := by
  have hsettled := h.settled s q hs
  cases q with
  | none => exact hsettled
  | some b => exact hsettled.2.resolve_right fun hr => by simp [hopened] at hr

/-- The cell of an object, when no definition is open. -/
theorem Reading.cell_eq (h : Reading heap ks c g r) (hopened : g.opened = ∅)
    (hfull : Full heap (fun _ => 0) c g) {a : ν} (ha : c a ≠ 0) (hz : heap a ≠ .zombie) :
    r.cells[g.place a]? =
      some (((heap a).map fun q => (alive heap q).map g.place).map Word.ofRef) := by
  obtain ⟨o, ho, hlabel⟩ := Option.map_eq_some_iff.mp (h.label a ha hz)
  have hfield : ∀ x q, (heap a).field x = some q →
      o.field x = some (Word.ofRef ((alive heap q).map g.place)) := by
    intro x q hx
    have hget := h.get_eq hopened (hfull a rfl ha x q hx)
    simpa [Reader.get, ho] using hget
  rw [ho, Option.some.injEq]
  cases hobj : heap a with
  | cons car cdr =>
      rw [hobj] at hfield hlabel
      have hcar := hfield .car car rfl
      have hcdr := hfield .cdr cdr rfl
      cases o <;> simp_all [Object.label, Object.field, Object.map]
  | number x =>
      rw [hobj] at hlabel
      cases o <;> simp_all [Object.label, Object.map]
  | string s =>
      obtain ⟨bytes, hbytes⟩ := s
      rw [hobj] at hlabel
      cases o with
      | string s' =>
          obtain ⟨bytes', hbytes'⟩ := s'
          simp_all [Object.label, Object.map]
      | _ => simp [Object.label] at hlabel
  | symbol name =>
      obtain ⟨⟨bytes, hbytes⟩, hname⟩ := name
      rw [hobj] at hlabel
      cases o with
      | symbol name' =>
          obtain ⟨⟨bytes', hbytes'⟩, hname'⟩ := name'
          simp_all [Object.label, Object.map]
      | _ => simp [Object.label] at hlabel
  | zombie => exact absurd hobj hz

/-- Without zombies, an object and the cell it is read as have the same fields. -/
theorem Reading.heap_eq (h : Reading heap ks c g r) (hopened : g.opened = ∅)
    (hfull : Full heap (fun _ => 0) c g) {a : ν} (ha : c a ≠ 0) (hz : heap a ≠ .zombie)
    (hfields : ∀ q ∈ (heap a).children, alive heap q = q) :
    r.cells[g.place a]? = some ((r.heap (g.place a)).map Word.ofRef) ∧
      r.heap (g.place a) = (heap a).map (Option.map g.place) := by
  have hcell := h.cell_eq hopened hfull ha hz
  have hmap : (heap a).map (fun q => (alive heap q).map g.place) =
      (heap a).map (Option.map g.place) :=
    Object.map_congr fun q hq => by rw [hfields q hq]
  have hheap : r.heap (g.place a) = (heap a).map (Option.map g.place) := by
    rw [Reader.heap, hcell, Option.map_some, Option.getD_some, Object.map_map, Object.map_map,
      ← hmap]
    exact Object.map_congr fun q _ => by simp
  exact ⟨by rw [hcell, hheap, hmap], hheap⟩

/-! ## Files -/

section Files

variable [Fintype ν] {p : Option ν} {image : Image} {visits : ν → ℕ}

/-- Nothing has been read yet. -/
def Ghost.start (ν : Type) : Ghost ν := ⟨fun _ => 0, fun _ => none, ∅, fun _ => []⟩

omit [Fintype ν] in
theorem reading_start (heap : ν → Object (Option ν)) (ks : List ν) (cells : List (Object Word))
    (input : List UInt8) :
    Reading heap ks (fun _ => 0) (Ghost.start ν)
      ⟨input, cells, List.replicate ks.length (.null, .empty), .null⟩ where
  label a ha := absurd rfl ha
  inj a _ ha := absurd rfl ha
  settled s q hs := by simp [Ghost.start] at hs
  chained a ha := by simp [Ghost.start] at ha
  threaded a ha := by simp [Ghost.start] at ha
  nodup a ha := by simp [Ghost.start] at ha
  visited a ha := by simp [Ghost.start] at ha
  table := by
    refine (List.eq_replicate_iff.mpr ⟨by simp, fun e he => ?_⟩).symm
    obtain ⟨a, -, rfl⟩ := List.mem_map.mp he
    simp [Ghost.entry]

/-- **What `bread` makes of a file that was written**: it reads all of it, and
complains when a zombie was relocated. -/
theorem bread_written (swapflag : Bool) (hwritten : Written heap p image visits ks)
    (hreadable : ∀ a, Reachable (refs heap) [p] a → Readable (heap a))
    (hks : ks.length ≤ 10000000) (cells : List (Object Word)) (rest : List UInt8) :
    ∃ g r, Reading heap ks visits g r ∧ r.input = rest ∧ g.owner .ans = some (alive heap p) ∧
      Full heap (fun _ => 0) visits g ∧ g.opened = ∅ ∧
      bread swapflag cells 0 (image.bytes swapflag ++ rest) =
        if ∃ a ∈ ks, heap a = .zombie then
          .error (.error "Corrupted binary file (unresolved relocs)")
        else .ok r := by
  set input := bytesOf swapflag image.tokens ++ rest with hinput
  set r0 : Reader := ⟨input, cells, List.replicate ks.length (.null, .empty), .null⟩ with hr0
  have hreads : Reads swapflag heap ks (fun _ => 0) visits p image.tokens :=
    reads_of_emits swapflag hwritten.nodup (hks.trans (by decide)) hwritten.emits fun a ha =>
      hreadable a ((hwritten.visits_iff a).mp ha)
  have hfuel : image.tokens.length < input.length + 1 := by
    have := length_le_bytesOf swapflag image.tokens
    simp only [hinput, List.length_append]
    omega
  obtain ⟨flag, g, r, hr, hrest, hres, -⟩ := hreads _ r0 .ans true (input.length + 1) rest
    (reading_start heap ks cells input) rfl rfl hfuel rfl
  have hopened : g.opened = ∅ := hres.opened
  refine ⟨g, r, hres.reading, hrest, hres.mine, hres.full, hopened, ?_⟩
  -- a relocation is left over exactly when it is that of a zombie
  have hany : (r.reloc.any fun e => e.2 ≠ .defd) = true ↔ ∃ a ∈ ks, heap a = .zombie := by
    rw [hres.reading.table, List.any_map, List.any_eq_true]
    refine exists_congr fun a => and_congr_right fun ha => ?_
    have hvisits : visits a ≠ 0 := by
      have := (hwritten.mem_iff a).mp ha
      omega
    by_cases hz : heap a = .zombie
    · simp [Ghost.entry, hz]
    · simp [Ghost.entry, hz, hvisits, hopened]
  have hbread : bread swapflag cells 0 (image.bytes swapflag ++ rest) =
      if r.reloc.any fun e => e.2 ≠ .defd then
        .error (.error "Corrupted binary file (unresolved relocs)") else .ok r := by
    have hlt : image.relocn < 16777216 := by
      rw [hwritten.relocn]
      omega
    have hle : ¬image.relocn > 10000000 := by
      rw [hwritten.relocn]
      omega
    have hr' : localBread swapflag (input.length + 1) true .ans
        ⟨input, cells, List.replicate image.relocn (.null, .empty), .null⟩ = .ok (flag, r) := by
      rw [hwritten.relocn]
      exact hr
    unfold bread
    simp only [Image.bytes, List.cons_append, List.append_assoc, readCard8_cons, Bind.bind,
      Except.bind, readCard24_card24 hlt, hle, ← hinput, if_false, ne_eq, not_true_eq_false, hr']
  rw [hbread]
  by_cases hz : ∃ a ∈ ks, heap a = .zombie
  · rw [if_pos hz, if_pos (hany.mpr hz)]
  · rw [if_neg hz, if_neg (hany.not.mpr hz)]

/-- **Binary round trip.**  A graph without zombies, within the limits of the
reader, is written; what was written is read back, whatever the memory holds and
whatever follows on the file, and nothing more is read; the graph read is
isomorphic to the one written. -/
theorem bread_bwrite (swapflag : Bool) (heap : ν → Object (Option ν)) (p : Option ν)
    (cells : List (Object Word)) (rest : List UInt8)
    (hzombie : ∀ a, Reachable (refs heap) [p] a → heap a ≠ .zombie)
    (hreadable : ∀ a, Reachable (refs heap) [p] a → Readable (heap a))
    (hshared : (shared heap p).card < 10000000) :
    ∃ (file : List UInt8) (r : Reader) (heap' : ℕ → Object (Option ℕ)) (p' : Option ℕ),
      bwrite swapflag heap 0 p = .ok (file, file.length) ∧
      bread swapflag cells 0 (file ++ rest) = .ok r ∧ r.input = rest ∧
      r.ans = Word.ofRef p' ∧
      (∀ n, Reachable (refs heap') [p'] n → r.cells[n]? = some ((heap' n).map Word.ofRef)) ∧
      Isomorphic heap p heap' p' := by
  obtain ⟨image, w, visits, ks, himage, -, hwritten⟩ := writeImage_ok heap p
  have hvisits := hwritten.visits_iff
  have hks : ks.length ≤ 10000000 := by
    rw [hwritten.length_eq]
    omega
  obtain ⟨g, r, hreading, hrest, hmine, hfull, hopened, hbread⟩ :=
    bread_written swapflag hwritten hreadable hks cells rest
  have hnone : ¬∃ a ∈ ks, heap a = .zombie := by
    rintro ⟨a, ha, hz⟩
    have htwice := (hwritten.mem_iff a).mp ha
    exact hzombie a ((hvisits a).mp (by omega)) hz
  rw [if_neg hnone] at hbread
  have halive : ∀ q, (∀ a, q = some a → Reachable (refs heap) [p] a) → alive heap q = q := by
    intro q hq
    cases q with
    | none => rfl
    | some a => exact if_neg (hzombie a (hq a rfl))
  have hcell : ∀ a, Reachable (refs heap) [p] a →
      r.cells[g.place a]? = some ((r.heap (g.place a)).map Word.ofRef) ∧
        r.heap (g.place a) = (heap a).map (Option.map g.place) := by
    intro a ha
    refine hreading.heap_eq hopened hfull ((hvisits a).mpr ha) (hzombie a ha) fun q hq => ?_
    exact halive q fun b hb => ha.step (hb ▸ hq)
  have hp : alive heap p = p := halive p fun a ha => .of_mem (by simp [ha])
  have hans : r.ans = Word.ofRef (p.map g.place) := by
    have hget := hreading.get_eq hopened hmine
    rw [hp] at hget
    exact Option.some.inj hget
  refine ⟨image.bytes swapflag, r, r.heap, p.map g.place, ?_, hbread, hrest, hans,
    fun n hn => ?_, .of_map (fun a ha => (hcell a ha).2) fun a b ha hb heq => ?_⟩
  · simp [bwrite, himage, Bind.bind, Except.bind, pure, Except.pure]
  · -- what is reachable after reading comes from what was reachable
    have hfrom : ∃ a, Reachable (refs heap) [p] a ∧ g.place a = n := by
      refine hn.induction (P := fun n => ∃ a, Reachable (refs heap) [p] a ∧ g.place a = n)
        (fun m hm => ?_) fun m m' hm hm' => ?_
      · cases p with
        | none => simp at hm
        | some a => exact ⟨a, .of_mem (by simp), by simpa [eq_comm] using hm⟩
      · obtain ⟨a, ha, rfl⟩ := hm
        have hmem : some m' ∈ (r.heap (g.place a)).children := hm'
        rw [(hcell a ha).2, Object.children_map, List.mem_map] at hmem
        obtain ⟨q, hq, hqm⟩ := hmem
        obtain ⟨b, rfl, hb⟩ := Option.map_eq_some_iff.mp hqm
        exact ⟨b, ha.step hq, hb⟩
    obtain ⟨a, ha, rfl⟩ := hfrom
    exact (hcell a ha).1
  · exact hreading.inj a b ((hvisits a).mpr ha) ((hvisits b).mpr hb) (hzombie a ha)
      (hzombie b hb) heq

/-- A cell that is its own car, and whose cdr is the string `hi`. -/
def loop : Fin 2 → Object (Option (Fin 2))
  | 0 => .cons (some 0) (some 1)
  | 1 => .string ⟨[104, 105], by decide⟩

theorem bread_bwrite_loop :
    ∃ (file : List UInt8) (r : Reader) (heap' : ℕ → Object (Option ℕ)) (p' : Option ℕ),
      bwrite true loop 0 (some 0) = .ok (file, file.length) ∧
      bread true [.number 0] 0 (file ++ [3]) = .ok r ∧ r.input = [3] ∧
      r.ans = Word.ofRef p' ∧
      (∀ n, Reachable (refs heap') [p'] n → r.cells[n]? = some ((heap' n).map Word.ofRef)) ∧
      Isomorphic loop (some 0) heap' p' := by
  refine bread_bwrite true loop (some 0) [.number 0] [3] (fun a _ => ?_) (fun a _ => ?_) ?_
  · match a with
    | 0 => simp [loop]
    | 1 => simp [loop]
  · match a with
    | 0 => trivial
    | 1 => show 2 < 16777216; decide
  · exact (Finset.card_le_univ _).trans_lt (by decide)

end Files

end Lush.Binary
