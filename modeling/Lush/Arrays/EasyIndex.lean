import Lush.Arrays.InPlace

/-!
# The cached offset

`make_offset` remembers the index, the coordinates and the offset of the last access.  When the
next access is to the same index it goes from there in unit steps, one dimension after the other,
and gives up at the first dimension where the step is longer; then it computes the offset from
all coordinates.  What is remembered always fits together (`Valid`), since the coordinates that
the first loop has stored are stored once more by the second one.
-/

namespace Lush.Arrays.EasyIndex

open InPlace Rollback

/-! ## The offset -/

/-- `lastind`, `lastcoord` and `lastoffset`. -/
structure Cache where
  lastind : Option ℕ
  lastcoord : ℕ → ℤ
  lastoffset : ℤ

section

variable (mod coord : ℕ → ℤ)

/-- The loop that goes in unit steps: the coordinates it has stored, and the offset unless it gives
up. -/
def unitSteps : ℕ → ℕ → (ℕ → ℤ) → ℤ → (ℕ → ℤ) × Option ℤ
  | 0, _, lastcoord, off => (lastcoord, some off)
  | n + 1, i, lastcoord, off =>
      let k := lastcoord i
      let j := coord i
      if j - k = 1 then unitSteps n (i + 1) (Function.update lastcoord i j) (off + mod i)
      else if j - k = -1 then unitSteps n (i + 1) (Function.update lastcoord i j) (off - mod i)
      else if j - k = 0 then unitSteps n (i + 1) (Function.update lastcoord i j) off
      else (lastcoord, none)

/-- The loop after `offset_byhand`. -/
def byHand : ℕ → ℕ → (ℕ → ℤ) → ℤ → (ℕ → ℤ) × ℤ
  | 0, _, lastcoord, off => (lastcoord, off)
  | n + 1, i, lastcoord, off =>
      let k := coord i
      byHand n (i + 1) (Function.update lastcoord i k) (off + k * mod i)

end

/-- `make_offset`, for the index at an address. -/
def makeOffset (ind : ℕ) (fields : Fields) (coord : ℕ → ℤ) (cache : Cache) : ℤ × Cache :=
  let ndim := fields.ndim.toNat
  let steps :=
    if cache.lastind = some ind then
      unitSteps fields.mod coord ndim 0 cache.lastcoord cache.lastoffset
    else (cache.lastcoord, none)
  match steps.2 with
  | some off => (off, { cache with lastcoord := steps.1, lastoffset := off })
  | none =>
      let hand := byHand fields.mod coord ndim 0 steps.1 fields.offset
      (hand.2, ⟨some ind, hand.1, hand.2⟩)

/-- Where the element with some coordinates is. -/
def place (fields : Fields) (coord : ℕ → ℤ) : ℤ :=
  fields.offset + ∑ i ∈ Finset.range fields.ndim.toNat, coord i * fields.mod i

/-! ## The access functions -/

/-- What an element of a storage is. -/
inductive Datum
  | number (x : ℚ)
  | other

/-- The indexes, the storages with their elements, and the static variables.  An index is named
by its address. -/
structure Machine where
  inds : ℕ → Fields
  st : ℕ → ℕ
  storages : ℕ → Storage
  cells : ℕ → ℤ → Datum
  cache : Cache

/-- `(*st->getat)(st, offset)`. -/
def Machine.getat (m : Machine) (st : ℕ) (offset : ℤ) : Except Fault Datum :=
  if 0 ≤ offset ∧ offset < (m.storages st).size then .ok (m.cells st offset)
  else .error .undefined

/-- `(*st->setat)(st, offset, p)`; `put` tells what the storage makes of a number. -/
def Machine.setat (put : ℕ → ℚ → Except Fault Datum) (m : Machine) (st : ℕ) (offset : ℤ) (x : ℚ) :
    Except Fault Machine := do
  let d ← put st x
  if 0 ≤ offset ∧ offset < (m.storages st).size then
    .ok { m with cells := Function.update m.cells st (Function.update (m.cells st) offset d) }
  else .error .undefined

/-- `make_offset`, with the static variables. -/
def Machine.makeOffset (m : Machine) (ind : ℕ) (coord : ℕ → ℤ) : ℤ × Machine :=
  let r := EasyIndex.makeOffset ind (m.inds ind) coord m.cache
  (r.1, { m with cache := r.2 })

/-- `easy_index_get`. -/
def easyIndexGet (m : Machine) (ind : ℕ) (coord : ℕ → ℤ) : Except Fault ℚ × Machine :=
  let r := m.makeOffset ind coord
  match r.2.getat (m.st ind) r.1 with
  | .ok (.number x) => (.ok x, r.2)
  | .ok .other => (.error (.error "Not a number"), r.2)
  | .error fault => (.error fault, r.2)

/-- `easy_index_set`. -/
def easyIndexSet (put : ℕ → ℚ → Except Fault Datum) (m : Machine) (ind : ℕ) (coord : ℕ → ℤ)
    (x : ℚ) : Except Fault Unit × Machine :=
  let r := m.makeOffset ind coord
  match r.2.setat put (m.st ind) r.1 x with
  | .ok m => (.ok (), m)
  | .error fault => (.error fault, r.2)

/-- The loop of `easy_index_check` for an index with dimensions. -/
def checkDims (fields : Fields) : ℕ → List ℤ → Except Fault (List ℤ)
  | _, [] => .ok []
  | i, d :: dim =>
      if d ≠ 0 ∧ d ≠ fields.dim i then .error (.error ("illegal dimension #" ++ toString i))
      else do
        let rest ← checkDims fields (i + 1) dim
        .ok (fields.dim i :: rest)

/-- `easy_index_check`: the index, and what is in `dim` after it. -/
def easyIndexCheck (alloc : ℤ → Bool) (m : Machine) (p : Option ℕ) (dim : List ℤ) :
    Except Fault (ℕ × List ℤ) × Machine :=
  match p with
  | none => (.error (.error "not an index"), m)
  | some ind =>
      let fields := m.inds ind
      if fields.unsized = true then
        match dim.findIdx? (· = 0) with
        | some i => (.error (.error ("unspecified dimension #" ++ toString i)), m)
        | none =>
            let r := result (InPlace.indexDimension alloc dim) ⟨fields, m.storages (m.st ind)⟩
            let m := { m with
              inds := Function.update m.inds ind r.2.ind
              storages := Function.update m.storages (m.st ind) r.2.st }
            match r.1 with
            | .error e => (.error (.error e), m)
            | .ok _ => (.ok (ind, dim), { m with cache.lastind := none })
      else if dim.length ≠ fields.ndim then
        (.error (.error (toString dim.length ++ "D index expected")), m)
      else
        match checkDims fields 0 dim with
        | .error fault => (.error fault, m)
        | .ok dim => (.ok (ind, dim), { m with cache.lastind := none })

/-- What is done with indexes. -/
inductive Access
  | check (p : Option ℕ) (dim : List ℤ)
  | get (ind : ℕ) (coord : ℕ → ℤ)
  | set (ind : ℕ) (coord : ℕ → ℤ) (x : ℚ)

variable (alloc : ℤ → Bool) (put : ℕ → ℚ → Except Fault Datum)

/-- The state after an access, which may have signalled an error. -/
def Access.step (m : Machine) : Access → Machine
  | .check p dim => (easyIndexCheck alloc m p dim).2
  | .get ind coord => (easyIndexGet m ind coord).2
  | .set ind coord x => (easyIndexSet put m ind coord x).2

/-! ## The two loops -/

section

variable {mod coord lastcoord : ℕ → ℤ} {off : ℤ} {n i : ℕ}

/-- The coordinates of the next dimensions are stored. -/
def stored (coord lastcoord : ℕ → ℤ) (i n : ℕ) : ℕ → ℤ := fun t =>
  if i ≤ t ∧ t < i + n then coord t else lastcoord t

@[simp] theorem stored_zero : stored coord lastcoord i 0 = lastcoord := by
  funext t
  rw [stored, if_neg (by omega)]

theorem stored_succ : stored coord (Function.update lastcoord i (coord i)) (i + 1) n =
    stored coord lastcoord i (n + 1) := by
  funext t
  unfold stored
  by_cases ht : t = i
  · subst ht
    rw [if_neg (by omega), if_pos (by omega), Function.update_self]
  · have hiff : (i + 1 ≤ t ∧ t < i + 1 + n) ↔ i ≤ t ∧ t < i + (n + 1) := by omega
    simp only [hiff, Function.update_of_ne ht]

theorem sum_Ico_succ (g : ℕ → ℤ) :
    ∑ t ∈ Finset.Ico i (i + (n + 1)), g t = g i + ∑ t ∈ Finset.Ico (i + 1) (i + 1 + n), g t := by
  rw [Finset.sum_eq_sum_Ico_succ_bot (by omega), show i + (n + 1) = i + 1 + n by omega]

/-- **The second loop** adds up the coordinates times the moduli, and stores them. -/
theorem byHand_eq : byHand mod coord n i lastcoord off =
    (stored coord lastcoord i n, off + ∑ t ∈ Finset.Ico i (i + n), coord t * mod t) := by
  induction n generalizing i lastcoord off with
  | zero => rw [byHand, stored_zero, Nat.add_zero, Finset.Ico_self, Finset.sum_empty, add_zero]
  | succ n ih =>
      rw [byHand, ih, stored_succ, sum_Ico_succ]
      simp only [add_assoc]

/-- The sum over the next dimensions changes by the step in the first one. -/
theorem moved_succ (mod : ℕ → ℤ) (off : ℤ) (n : ℕ) {step : ℤ}
    (hstep : coord i - lastcoord i = step) :
    off + step * mod i + ∑ t ∈ Finset.Ico (i + 1) (i + 1 + n),
        (coord t - Function.update lastcoord i (coord i) t) * mod t =
      off + ∑ t ∈ Finset.Ico i (i + (n + 1)), (coord t - lastcoord t) * mod t := by
  have hrest : ∑ t ∈ Finset.Ico (i + 1) (i + 1 + n),
        (coord t - Function.update lastcoord i (coord i) t) * mod t =
      ∑ t ∈ Finset.Ico (i + 1) (i + 1 + n), (coord t - lastcoord t) * mod t := by
    refine Finset.sum_congr rfl fun t ht => ?_
    have hne : t ≠ i := by
      have hle := (Finset.mem_Ico.mp ht).1
      omega
    rw [Function.update_of_ne hne]
  rw [hrest, sum_Ico_succ, hstep]
  ring

/-- **The first loop** goes from the old coordinates to the new ones, if it does not give up. -/
theorem unitSteps_eq {lastcoord' : ℕ → ℤ} {off' : ℤ}
    (h : unitSteps mod coord n i lastcoord off = (lastcoord', some off')) :
    lastcoord' = stored coord lastcoord i n ∧
      off' = off + ∑ t ∈ Finset.Ico i (i + n), (coord t - lastcoord t) * mod t := by
  induction n generalizing i lastcoord off with
  | zero =>
      obtain ⟨rfl, hoff⟩ := Prod.mk.inj h
      rw [stored_zero, Nat.add_zero, Finset.Ico_self, Finset.sum_empty, add_zero]
      exact ⟨rfl, (Option.some.inj hoff).symm⟩
  | succ n ih =>
      rw [← stored_succ]
      simp only [unitSteps] at h
      split_ifs at h with h₁ h₂ h₃
      · obtain ⟨hcoord, hoff⟩ := ih h
        have hmoved := moved_succ mod off n h₁
        rw [one_mul] at hmoved
        exact ⟨hcoord, hoff.trans hmoved⟩
      · obtain ⟨hcoord, hoff⟩ := ih h
        have hmoved := moved_succ mod off n h₂
        rw [neg_one_mul, ← sub_eq_add_neg] at hmoved
        exact ⟨hcoord, hoff.trans hmoved⟩
      · obtain ⟨hcoord, hoff⟩ := ih h
        have hmoved := moved_succ mod off n h₃
        rw [zero_mul, add_zero] at hmoved
        exact ⟨hcoord, hoff.trans hmoved⟩
      · exact absurd (congrArg Prod.snd h) nofun

end

/-! ## What is remembered -/

/-- The remembered offset is that of the remembered coordinates. -/
def Valid (inds : ℕ → Fields) (cache : Cache) : Prop :=
  ∀ ind, cache.lastind = some ind → cache.lastoffset = place (inds ind) cache.lastcoord

theorem place_stored (fields : Fields) (coord lastcoord : ℕ → ℤ) :
    place fields (stored coord lastcoord 0 fields.ndim.toNat) = place fields coord := by
  unfold place
  congr 1
  refine Finset.sum_congr rfl fun t ht => ?_
  rw [stored, if_pos ⟨t.zero_le, by simpa using ht⟩]

variable {inds : ℕ → Fields} {cache : Cache} {m : Machine}

/-- **The offset is that of the coordinates**, and what is remembered fits together again. -/
theorem makeOffset_spec (h : Valid inds cache) (ind : ℕ) (coord : ℕ → ℤ) :
    (makeOffset ind (inds ind) coord cache).1 = place (inds ind) coord ∧
      Valid inds (makeOffset ind (inds ind) coord cache).2 := by
  have hvalid : ∀ lastcoord, Valid inds
      ⟨some ind, stored coord lastcoord 0 (inds ind).ndim.toNat, place (inds ind) coord⟩ := by
    intro lastcoord ind' hind
    obtain rfl := Option.some.inj hind
    exact (place_stored _ _ _).symm
  have hhand : ∀ lastcoord, byHand (inds ind).mod coord (inds ind).ndim.toNat 0 lastcoord
      (inds ind).offset = (stored coord lastcoord 0 (inds ind).ndim.toNat, place (inds ind) coord) := by
    intro lastcoord
    rw [byHand_eq, Nat.zero_add, Nat.Ico_zero_eq_range, place]
  by_cases hlast : cache.lastind = some ind
  · rcases hsteps : unitSteps (inds ind).mod coord (inds ind).ndim.toNat 0 cache.lastcoord
      cache.lastoffset with ⟨lastcoord, off⟩
    cases off with
    | none =>
        -- The loop has given up: the coordinates it has stored do not matter.
        simp only [makeOffset, if_pos hlast, hsteps, hhand]
        exact ⟨trivial, hvalid _⟩
    | some off =>
        obtain ⟨rfl, rfl⟩ := unitSteps_eq hsteps
        have hoff : cache.lastoffset + ∑ t ∈ Finset.Ico 0 (0 + (inds ind).ndim.toNat),
            (coord t - cache.lastcoord t) * (inds ind).mod t = place (inds ind) coord := by
          rw [h ind hlast, Nat.zero_add, Nat.Ico_zero_eq_range, place, place, add_assoc,
            ← Finset.sum_add_distrib]
          congr 1
          refine Finset.sum_congr rfl fun t _ => ?_
          ring
        simp only [makeOffset, if_pos hlast, hsteps, hoff]
        refine ⟨trivial, ?_⟩
        rw [hlast]
        exact hvalid _
  · simp only [makeOffset, if_neg hlast, hhand]
    exact ⟨trivial, hvalid _⟩

/-! ## Runs -/

/-- What is remembered of the indexes as they are. -/
def Machine.Valid (m : Machine) : Prop := EasyIndex.Valid m.inds m.cache

theorem Machine.Valid.makeOffset (h : m.Valid) (ind : ℕ) (coord : ℕ → ℤ) :
    (m.makeOffset ind coord).1 = place (m.inds ind) coord ∧ (m.makeOffset ind coord).2.Valid :=
  makeOffset_spec h ind coord

theorem Machine.Valid.easyIndexGet (h : m.Valid) (ind : ℕ) (coord : ℕ → ℤ) :
    (easyIndexGet m ind coord).2.Valid := by
  have hvalid := (h.makeOffset ind coord).2
  unfold EasyIndex.easyIndexGet
  simp only
  split <;> exact hvalid

theorem Machine.setat_frame {put : ℕ → ℚ → Except Fault Datum} {m m' : Machine} {st : ℕ}
    {offset : ℤ} {x : ℚ} (h : m.setat put st offset x = .ok m') :
    m'.inds = m.inds ∧ m'.cache = m.cache := by
  unfold Machine.setat at h
  obtain ⟨d, -, h⟩ := bind_ok.mp h
  split_ifs at h
  obtain rfl := Except.ok.inj h
  exact ⟨rfl, rfl⟩

theorem Machine.Valid.easyIndexSet (h : m.Valid) (put : ℕ → ℚ → Except Fault Datum) (ind : ℕ)
    (coord : ℕ → ℤ) (x : ℚ) : (easyIndexSet put m ind coord x).2.Valid := by
  have hvalid := (h.makeOffset ind coord).2
  unfold EasyIndex.easyIndexSet
  simp only
  split
  case h_1 m' hset =>
    obtain ⟨hinds, hcache⟩ := Machine.setat_frame hset
    unfold Machine.Valid
    rw [hinds, hcache]
    exact hvalid
  case h_2 => exact hvalid

theorem valid_of_none (h : cache.lastind = none) : Valid inds cache := by
  intro ind hind
  rw [h] at hind
  exact absurd hind nofun

/-- A check that succeeds makes the cache forget the index. -/
theorem easyIndexCheck_ok {alloc : ℤ → Bool} {m m' : Machine} {p : Option ℕ} {dim : List ℤ}
    {r : ℕ × List ℤ} (h : easyIndexCheck alloc m p dim = (.ok r, m')) : m'.Valid := by
  refine valid_of_none ?_
  unfold easyIndexCheck at h
  cases p with
  | none => cases h
  | some ind =>
      simp only at h
      split_ifs at h
      · split at h
        · cases h
        · split at h
          · cases h
          · obtain ⟨-, rfl⟩ := Prod.mk.inj h
            rfl
      · cases h
      · split at h
        · cases h
        · obtain ⟨-, rfl⟩ := Prod.mk.inj h
          rfl

/-- A check that fails leaves the indexes as they are. -/
theorem easyIndexCheck_error {alloc : ℤ → Bool} {m m' : Machine} {p : Option ℕ} {dim : List ℤ}
    {fault : Fault} (h : easyIndexCheck alloc m p dim = (.error fault, m')) :
    m'.inds = m.inds ∧ m'.cache = m.cache := by
  unfold easyIndexCheck at h
  cases p with
  | none =>
      obtain ⟨-, rfl⟩ := Prod.mk.inj h
      exact ⟨rfl, rfl⟩
  | some ind =>
      simp only at h
      split_ifs at h
      · split at h
        · obtain ⟨-, rfl⟩ := Prod.mk.inj h
          exact ⟨rfl, rfl⟩
        · split at h
          case h_1 e herror =>
            obtain ⟨-, rfl⟩ := Prod.mk.inj h
            have hkept := atomic_indexDimension alloc dim ⟨m.inds ind, m.storages (m.st ind)⟩ e _
              (Prod.ext herror rfl)
            refine ⟨?_, rfl⟩
            exact (congrArg (Function.update m.inds ind) hkept).trans (Function.update_eq_self ind m.inds)
          case h_2 => cases h
      · obtain ⟨-, rfl⟩ := Prod.mk.inj h
        exact ⟨rfl, rfl⟩
      · split at h
        · obtain ⟨-, rfl⟩ := Prod.mk.inj h
          exact ⟨rfl, rfl⟩
        · cases h

theorem Machine.Valid.easyIndexCheck (h : m.Valid) (alloc : ℤ → Bool) (p : Option ℕ)
    (dim : List ℤ) : (easyIndexCheck alloc m p dim).2.Valid := by
  rcases hr : EasyIndex.easyIndexCheck alloc m p dim with ⟨e | r, m'⟩
  · obtain ⟨hinds, hcache⟩ := easyIndexCheck_error hr
    unfold Machine.Valid
    rw [hinds, hcache]
    exact h
  · exact easyIndexCheck_ok hr

variable {alloc put}

/-- **One access** keeps what is remembered together. -/
theorem Access.step_valid (h : m.Valid) (a : Access) : (a.step alloc put m).Valid := by
  cases a with
  | check p dim => exact h.easyIndexCheck alloc p dim
  | get ind coord => exact h.easyIndexGet ind coord
  | set ind coord x => exact h.easyIndexSet put ind coord x

theorem run_valid (h : m.Valid) (accesses : List Access) :
    (accesses.foldl (Access.step alloc put) m).Valid := by
  induction accesses generalizing m with
  | nil => exact h
  | cons a accesses ih => exact ih (a.step_valid h)

/-- **The cached offset is the computed one** after a check and any accesses, to this index and to
others. -/
theorem makeOffset_run {m₀ : Machine} {p : Option ℕ} {dim : List ℤ} {r : ℕ × List ℤ}
    (h : easyIndexCheck alloc m₀ p dim = (.ok r, m)) (accesses : List Access) (ind : ℕ)
    (coord : ℕ → ℤ) :
    ((accesses.foldl (Access.step alloc put) m).makeOffset ind coord).1 =
      place ((accesses.foldl (Access.step alloc put) m).inds ind) coord :=
  ((run_valid (easyIndexCheck_ok h) accesses).makeOffset ind coord).1

/-- A matrix with three lines and three columns, at offset 5. -/
def sampleMatrix : Machine where
  inds _ := ⟨false, 2, 5, fun _ => 3, fun i => if i = 0 then 3 else 1⟩
  st _ := 0
  storages _ := ⟨false, true, 14⟩
  cells _ offset := .number offset
  cache := ⟨none, fun _ => 0, 0⟩

/-- After elements (0, 0) and (0, 1), the step to (1, 1) is cached and the one to (2, 0) is not. -/
theorem sampleMatrix_makeOffset :
    let put : ℕ → ℚ → Except Fault Datum := fun _ x => .ok (.number x)
    let accesses : List Access :=
      [.get 0 fun _ => 0, .set 0 (fun i => i) 7, .get 0 fun _ => 1]
    let m := accesses.foldl (Access.step (fun _ => true) put) sampleMatrix
    (m.makeOffset 0 fun i => 2 - 2 * i).1 = 11 :=
  have hcheck : easyIndexCheck (fun _ => true) sampleMatrix (some 0) [3, 0] =
      (.ok (0, [3, 3]), (easyIndexCheck (fun _ => true) sampleMatrix (some 0) [3, 0]).2) := rfl
  (makeOffset_run hcheck _ _ _).trans (by decide +kernel)

end Lush.Arrays.EasyIndex
