import Lush.Event.Queue

/-!
# Timers

The pending timers are a list in the order of their dates.  A date is a number of
seconds and a number of milliseconds, which are compared one after the other; the
milliseconds go up to 1000, because `evtime_add` carries only what is above that.
So one instant has two dates.  All the same the order of the dates is that of
the instants they stand for (`Normal.le_of_cmp`), and to be compared with the clock,
whose milliseconds stay below 1000, a date may be replaced by its instant
(`due_iff`).

`timer_fire` posts the events of the timers at the head of the list for as long
as they are due, and puts the periodic ones back behind the clock.
-/

namespace Lush.Event

variable {η δ : Type}

/-! ## Dates -/

/-- `evtime_t`. -/
structure EvTime where
  sec : ℤ
  msec : ℤ
deriving DecidableEq

namespace EvTime

/-- The instant a date stands for, or the length of a delay, in milliseconds. -/
def ms (t : EvTime) : ℤ :=
  1000 * t.sec + t.msec

end EvTime

/-- `evtime_cmp`. -/
def evtimeCmp (t1 t2 : EvTime) : ℤ :=
  if t1.sec < t2.sec then -1
  else if t1.sec > t2.sec then 1
  else if t1.msec < t2.msec then -1
  else if t1.msec > t2.msec then 1
  else 0

/-- The loop of `evtime_add` and of `evtime_sub`. -/
def evtimeCarry : ℕ → EvTime → Except Fault EvTime
  | 0, _ => .error .depth
  | rounds + 1, r =>
      if r.msec > 1000 then evtimeCarry rounds ⟨r.sec + 1, r.msec - 1000⟩ else .ok r

/-- `evtime_add`. -/
def evtimeAdd (t1 t2 : EvTime) : Except Fault EvTime :=
  let msec := t1.msec + t2.msec
  evtimeCarry (msec.toNat + 1) ⟨t1.sec + t2.sec, msec⟩

/-- `evtime_sub`. -/
def evtimeSub (t1 t2 : EvTime) : Except Fault EvTime :=
  let msec := t1.msec + 1000 - t2.msec
  evtimeCarry (msec.toNat + 1) ⟨t1.sec - t2.sec - 1, msec⟩

/-- What `os_curtime` gives: no clock is before 1970, and the milliseconds are below
1000. -/
structure Clock extends EvTime where
  sec_nonneg : 0 ≤ sec
  msec_nonneg : 0 ≤ msec
  msec_lt : msec < 1000

/-! ## The list of timers -/

/-- `struct event_timer`; `handle` is its address. -/
structure EventTimer (η : Type) where
  handle : ℕ
  date : EvTime
  period : EvTime
  handler : η
deriving DecidableEq

/-- `ti_finalize`. -/
def tiFinalize [DecidableEq η] (handler : η) (timers : List (EventTimer η)) :
    List (EventTimer η) :=
  timers.filter fun t => t.handler ≠ handler

/-- `ti_insert`: behind the timers that are not later. -/
def tiInsert (ti : EventTimer η) : List (EventTimer η) → List (EventTimer η)
  | [] => [ti]
  | t :: timers =>
      if evtimeCmp ti.date t.date < 0 then ti :: t :: timers else t :: tiInsert ti timers

/-- `timer_add_sub`, with a handler. -/
def timerAddSub (handle : ℕ) (handler : η) (sec msec period : ℤ) (timers : List (EventTimer η)) :
    List (EventTimer η) :=
  tiInsert ⟨handle, ⟨sec, msec⟩, ⟨period.tdiv 1000, period.tmod 1000⟩, handler⟩ timers

/-- `timer_add`; a short interval is made 20 milliseconds long. -/
def timerAdd (now : Clock) (handle : ℕ) (handler : Option η) (delay period : ℤ)
    (timers : List (EventTimer η)) : Except Fault (List (EventTimer η)) :=
  match handler with
  | none => .error (.error "Illegal null event handler")
  | some handler =>
      if delay < 0 then .error (.error "Illegal timer delay")
      else if period < 0 then .error (.error "Illegal timer interval")
      else do
        let period := if 0 < period ∧ period < 20 then 20 else period
        let add ← evtimeAdd now.toEvTime ⟨delay.tdiv 1000, delay.tmod 1000⟩
        .ok (timerAddSub handle handler add.sec add.msec period timers)

/-- `(long)`, and `(int)`. -/
def truncate (x : ℚ) : ℤ :=
  if 0 ≤ x then ⌊x⌋ else ⌈x⌉

/-- `timer_abs`. -/
def timerAbs (handle : ℕ) (handler : Option η) (date : ℚ) (timers : List (EventTimer η)) :
    Except Fault (List (EventTimer η)) :=
  match handler with
  | none => .error (.error "Illegal null event handler")
  | some handler =>
      let sec := truncate date
      .ok (timerAddSub handle handler sec (truncate ((date - sec) * 1000)) 0 timers)

/-- `timer_del`. -/
def timerDel (handle : ℕ) (timers : List (EventTimer η)) : List (EventTimer η) :=
  timers.eraseP fun t => t.handle = handle

/-! ## Firing -/

/-- `event_add(ti->handler, p)`, where `p` is the list of the symbol `timer` and the
handle. -/
def postTimer (queue : Queue η δ ℕ) (ti : EventTimer η) : Queue η δ ℕ :=
  evAdd queue (some ti.handler) (some ti.handle) none (-1)

/-- The loop that brings the date of a periodic timer behind the clock. -/
def catchUp (now : Clock) (period : EvTime) : ℕ → EvTime → Except Fault EvTime
  | 0, _ => .error .depth
  | rounds + 1, date =>
      if evtimeCmp now.toEvTime date ≥ 0 then do
        let date ← evtimeAdd date period
        catchUp now period rounds date
      else
        .ok date

/-- The loop of `timer_fire`.  A period takes at least one millisecond of the time to
catch up with. -/
def fireLoop (now : Clock) :
    ℕ → List (EventTimer η) → Queue η δ ℕ → Except Fault (List (EventTimer η) × Queue η δ ℕ)
  | 0, _, _ => .error .depth
  | _ + 1, [], queue => .ok ([], queue)
  | rounds + 1, ti :: timers, queue =>
      if evtimeCmp now.toEvTime ti.date ≥ 0 then
        let queue := postTimer queue ti
        if ti.period.sec > 0 ∨ ti.period.msec > 0 then do
          let date ← catchUp now ti.period ((now.ms - ti.date.ms).toNat + 2) ti.date
          fireLoop now rounds (tiInsert { ti with date } timers) queue
        else
          fireLoop now rounds timers queue
      else
        .ok (ti :: timers, queue)

/-- What `timer_fire` returns: the time to the first date, if that is within a day. -/
def untilNext (now : Clock) : List (EventTimer η) → Except Fault ℤ
  | [] => .ok (24 * 3600 * 1000)
  | ti :: _ => do
      let diff ← evtimeSub ti.date now.toEvTime
      .ok (if diff.sec < 24 * 3600 then diff.sec * 1000 + diff.msec else 24 * 3600 * 1000)

/-- `timer_fire`.  No timer fires twice. -/
def timerFire (now : Clock) (timers : List (EventTimer η)) (queue : Queue η δ ℕ) :
    Except Fault (List (EventTimer η) × Queue η δ ℕ × ℤ) := do
  let (timers, queue) ← fireLoop now (timers.length + 1) timers queue
  let next ← untilNext now timers
  .ok (timers, queue, next)

/-! ## The arithmetic of dates -/

section Dates

variable {t1 t2 t3 r : EvTime} {now : Clock} {rounds : ℕ}

theorem evtimeCmp_nonpos :
    evtimeCmp t1 t2 ≤ 0 ↔ t1.sec < t2.sec ∨ t1.sec = t2.sec ∧ t1.msec ≤ t2.msec := by
  unfold evtimeCmp
  split_ifs <;> omega

theorem evtimeCmp_neg :
    evtimeCmp t1 t2 < 0 ↔ t1.sec < t2.sec ∨ t1.sec = t2.sec ∧ t1.msec < t2.msec := by
  unfold evtimeCmp
  split_ifs <;> omega

theorem evtimeCmp_trans (h : evtimeCmp t1 t2 ≤ 0) (h' : evtimeCmp t2 t3 ≤ 0) :
    evtimeCmp t1 t3 ≤ 0 := by
  rw [evtimeCmp_nonpos] at *
  omega

/-- A date that is not before 1970, or one that is; the milliseconds count in the
direction of the seconds. -/
def Normal (t : EvTime) : Prop :=
  0 ≤ t.sec ∧ 0 ≤ t.msec ∧ t.msec ≤ 1000 ∨ t.sec ≤ 0 ∧ -1000 < t.msec ∧ t.msec ≤ 0

/-- **The order of the dates is that of the instants they stand for.** -/
theorem Normal.le_of_cmp (h1 : Normal t1) (h2 : Normal t2) (h : evtimeCmp t1 t2 ≤ 0) :
    t1.ms ≤ t2.ms := by
  rw [evtimeCmp_nonpos] at h
  unfold Normal at h1 h2
  unfold EvTime.ms
  omega

/-- **A date is due when its instant is not after the clock.** -/
theorem due_iff (now : Clock) (h : Normal t1) : evtimeCmp now.toEvTime t1 ≥ 0 ↔ t1.ms ≤ now.ms := by
  have hclock := now.sec_nonneg
  have hlow := now.msec_nonneg
  have hhigh := now.msec_lt
  have hneg : evtimeCmp now.toEvTime t1 < 0 ↔
      now.sec < t1.sec ∨ now.sec = t1.sec ∧ now.msec < t1.msec := evtimeCmp_neg
  unfold Normal at h
  unfold EvTime.ms
  omega

/-- What the carry keeps, and what it brings about. -/
theorem evtimeCarry_ok (h : r.msec.toNat < rounds) :
    ∃ r', evtimeCarry rounds r = .ok r' ∧ r'.ms = r.ms ∧ r'.msec ≤ 1000 ∧ r.sec ≤ r'.sec ∧
      (0 ≤ r.msec → 0 ≤ r'.msec) := by
  induction rounds generalizing r with
  | zero => exact absurd h (Nat.not_lt_zero _)
  | succ rounds ih =>
      by_cases hcarry : r.msec > 1000
      · obtain ⟨r', hr', hms, hle, hsec, hmsec⟩ :=
          ih (r := ⟨r.sec + 1, r.msec - 1000⟩) (show (r.msec - 1000).toNat < rounds by omega)
        refine ⟨r', ?_, ?_, hle, ?_, fun _ => hmsec (show 0 ≤ r.msec - 1000 by omega)⟩
        · rw [evtimeCarry, if_pos hcarry, hr']
        · rw [hms, EvTime.ms, EvTime.ms]
          dsimp only
          omega
        · exact le_trans (show r.sec ≤ r.sec + 1 by omega) hsec
      · exact ⟨r, by rw [evtimeCarry, if_neg hcarry], rfl, by omega, le_rfl, id⟩

/-- **`evtime_add` adds.** -/
theorem evtimeAdd_ok (t1 t2 : EvTime) :
    ∃ r, evtimeAdd t1 t2 = .ok r ∧ r.ms = t1.ms + t2.ms ∧ r.msec ≤ 1000 ∧
      t1.sec + t2.sec ≤ r.sec ∧ (0 ≤ t1.msec + t2.msec → 0 ≤ r.msec) := by
  obtain ⟨r, hr, hms, hle, hsec, hmsec⟩ := evtimeCarry_ok
    (r := ⟨t1.sec + t2.sec, t1.msec + t2.msec⟩) (Nat.lt_succ_self (t1.msec + t2.msec).toNat)
  refine ⟨r, hr, ?_, hle, hsec, hmsec⟩
  rw [hms, EvTime.ms, EvTime.ms, EvTime.ms]
  dsimp only
  omega

/-- **`evtime_sub` subtracts**; it leaves some milliseconds when it can. -/
theorem evtimeSub_ok (t1 t2 : EvTime) :
    ∃ r, evtimeSub t1 t2 = .ok r ∧ r.ms = t1.ms - t2.ms ∧ r.msec ≤ 1000 ∧
      (0 ≤ t1.msec + 1000 - t2.msec → 0 ≤ r.msec) := by
  obtain ⟨r, hr, hms, hle, -, hmsec⟩ := evtimeCarry_ok
    (r := ⟨t1.sec - t2.sec - 1, t1.msec + 1000 - t2.msec⟩)
    (Nat.lt_succ_self (t1.msec + 1000 - t2.msec).toNat)
  refine ⟨r, hr, ?_, hle, hmsec⟩
  rw [hms, EvTime.ms, EvTime.ms, EvTime.ms]
  dsimp only
  omega

end Dates

/-! ## The invariant -/

/-- A timer that is periodic, with a period of at least 20 milliseconds and a date that
is not before 1970, or one that is not. -/
structure EventTimer.Proper (t : EventTimer η) : Prop where
  normal : Normal t.date
  period : t.period = ⟨0, 0⟩ ∨ 0 ≤ t.period.sec ∧ 0 ≤ t.period.msec ∧ t.period.msec < 1000 ∧
    20 ≤ t.period.ms ∧ 0 ≤ t.date.sec ∧ 0 ≤ t.date.msec

/-- **The invariant** of the list of timers. -/
structure Pending (timers : List (EventTimer η)) : Prop where
  proper : ∀ t ∈ timers, t.Proper
  sorted : timers.Pairwise fun t t' => evtimeCmp t.date t'.date ≤ 0

section Invariant

variable {ti t : EventTimer η} {timers timers' : List (EventTimer η)}

theorem pending_nil : Pending ([] : List (EventTimer η)) :=
  ⟨by simp, .nil⟩

theorem Pending.sublist (h : Pending timers) (hsub : timers'.Sublist timers) : Pending timers' :=
  ⟨fun t ht => h.proper t (hsub.subset ht), h.sorted.sublist hsub⟩

/-- The instants are in order. -/
theorem Pending.instants (h : Pending timers) :
    timers.Pairwise fun t t' => t.date.ms ≤ t'.date.ms := by
  refine h.sorted.imp_of_mem fun ht ht' hcmp => ?_
  exact (h.proper _ ht).normal.le_of_cmp (h.proper _ ht').normal hcmp

theorem tiInsert_perm (ti : EventTimer η) (timers : List (EventTimer η)) :
    (tiInsert ti timers).Perm (ti :: timers) := by
  induction timers with
  | nil => exact .refl _
  | cons t timers ih =>
      rw [tiInsert]
      split
      · exact .refl _
      · exact (ih.cons t).trans (.swap ti t timers)

theorem mem_tiInsert : t ∈ tiInsert ti timers ↔ t = ti ∨ t ∈ timers := by
  rw [(tiInsert_perm ti timers).mem_iff, List.mem_cons]

/-- **`ti_insert` keeps the list in order.** -/
theorem Pending.insert (h : Pending timers) (hti : ti.Proper) : Pending (tiInsert ti timers) := by
  refine ⟨fun t ht => ?_, ?_⟩
  · rcases mem_tiInsert.mp ht with rfl | ht
    exacts [hti, h.proper t ht]
  · induction timers with
    | nil => exact List.pairwise_singleton _ _
    | cons t timers ih =>
        obtain ⟨hhead, htail⟩ := List.pairwise_cons.mp h.sorted
        rw [tiInsert]
        split
        case isTrue hlt =>
          refine List.pairwise_cons.mpr ⟨fun t' ht' => ?_, h.sorted⟩
          rcases List.mem_cons.mp ht' with rfl | ht'
          · exact hlt.le
          · exact evtimeCmp_trans hlt.le (hhead t' ht')
        case isFalse hge =>
          have hle : evtimeCmp t.date ti.date ≤ 0 := by
            rw [evtimeCmp_neg] at hge
            rw [evtimeCmp_nonpos]
            omega
          refine List.pairwise_cons.mpr ⟨fun t' ht' => ?_, ih (h.sublist (List.sublist_cons_self _ _))⟩
          rcases mem_tiInsert.mp ht' with rfl | ht'
          exacts [hle, hhead t' ht']

/-- A filter that the new timer does not pass does not see it. -/
theorem filter_tiInsert {f : EventTimer η → Bool} (hti : f ti = false) (timers : List (EventTimer η)) :
    (tiInsert ti timers).filter f = timers.filter f := by
  induction timers with
  | nil => simp [tiInsert, hti]
  | cons t timers ih =>
      rw [tiInsert]
      split
      · rw [List.filter_cons, hti]
        simp
      · rw [List.filter_cons, List.filter_cons, ih]

end Invariant

/-! ## Adding timers -/

section Adding

variable {ti : EventTimer η} {timers timers' : List (EventTimer η)}

theorem normal_truncate (date : ℚ) :
    Normal ⟨truncate date, truncate ((date - truncate date) * 1000)⟩ := by
  unfold Normal
  by_cases h : 0 ≤ date
  · have hsec : truncate date = ⌊date⌋ := if_pos h
    have hlow := Int.floor_le date
    have hhigh := Int.lt_floor_add_one date
    rw [hsec]
    have hmsec : 0 ≤ (date - ⌊date⌋) * 1000 := by linarith
    refine .inl ⟨Int.floor_nonneg.mpr h, ?_, ?_⟩
    · simpa only [truncate, if_pos hmsec] using Int.floor_nonneg.mpr hmsec
    · simp only [truncate, if_pos hmsec]
      exact Int.floor_le_iff.mpr (by push_cast; linarith)
  · have hneg : date < 0 := not_le.mp h
    have hsec : truncate date = ⌈date⌉ := if_neg h
    have hlow := Int.le_ceil date
    have hhigh := Int.ceil_lt_add_one date
    rw [hsec]
    refine .inr ⟨Int.ceil_nonpos.mpr hneg.le, ?_, ?_⟩
    · by_cases hmsec : 0 ≤ (date - ⌈date⌉) * 1000
      · simp only [truncate, if_pos hmsec]
        exact lt_of_lt_of_le (by norm_num) (Int.floor_nonneg.mpr hmsec)
      · simp only [truncate, if_neg hmsec]
        exact Int.lt_ceil.mpr (by push_cast; linarith)
    · by_cases hmsec : 0 ≤ (date - ⌈date⌉) * 1000
      · simp only [truncate, if_pos hmsec]
        exact Int.floor_nonpos (by linarith)
      · simp only [truncate, if_neg hmsec]
        exact Int.ceil_nonpos.mpr (by linarith)

/-- `timer_add` puts in a proper timer. -/
theorem Pending.timerAdd {now : Clock} {handle : ℕ} {handler : Option η} {delay period : ℤ}
    (h : Pending timers) (hadd : timerAdd now handle handler delay period timers = .ok timers') :
    Pending timers' := by
  cases handler with
  | none => cases hadd
  | some handler =>
      simp only [Event.timerAdd] at hadd
      split at hadd
      case isTrue => cases hadd
      split at hadd
      case isTrue => cases hadd
      case isFalse hdelay hperiod =>
        obtain ⟨add, hsum, hadd⟩ := bind_ok.mp hadd
        cases hadd
        obtain ⟨r, hr, -, hle, hsec, hmsec⟩ :=
          evtimeAdd_ok now.toEvTime ⟨delay.tdiv 1000, delay.tmod 1000⟩
        rw [hsum] at hr
        cases hr
        have hclock := now.sec_nonneg
        have hlow := now.msec_nonneg
        have hdiv : 0 ≤ delay.tdiv 1000 := Int.tdiv_nonneg (by omega) (by omega)
        have hmod : 0 ≤ delay.tmod 1000 := Int.tmod_nonneg _ (by omega)
        have hadd0 : 0 ≤ add.sec := le_trans (by dsimp only; omega) hsec
        have hadd1 : 0 ≤ add.msec := hmsec (by dsimp only; omega)
        refine h.insert ⟨.inl ⟨hadd0, hadd1, hle⟩, ?_⟩
        -- the period is 0, or at least 20
        generalize hp : (if 0 < period ∧ period < 20 then 20 else period) = p
        have hcase : p = 0 ∨ 20 ≤ p := by split_ifs at hp <;> omega
        rcases hcase with rfl | hlong
        · exact .inl rfl
        · have hms : EvTime.ms ⟨p.tdiv 1000, p.tmod 1000⟩ = p := by
            have := Int.mul_tdiv_add_tmod p 1000
            simp only [EvTime.ms]
            omega
          exact .inr ⟨Int.tdiv_nonneg (by omega) (by omega), Int.tmod_nonneg _ (by omega),
            Int.tmod_lt_of_pos _ (by omega), hms.symm ▸ hlong, hadd0, hadd1⟩

theorem Pending.timerAbs {handle : ℕ} {handler : Option η} {date : ℚ} (h : Pending timers)
    (habs : timerAbs handle handler date timers = .ok timers') : Pending timers' := by
  cases handler with
  | none => cases habs
  | some handler =>
      cases habs
      exact h.insert ⟨normal_truncate date, .inl rfl⟩

end Adding

/-! ## Catching up -/

section CatchUp

variable {t : EventTimer η}

/-- The date of a periodic timer is brought to the first date of its own behind the
clock. -/
def Advanced (now : Clock) (t t' : EventTimer η) : Prop :=
  t'.handle = t.handle ∧ t'.handler = t.handler ∧ t'.period = t.period ∧
    (∃ k : ℕ, t'.date.ms = t.date.ms + k * t.period.ms) ∧
    now.ms < t'.date.ms ∧ t'.date.ms - t.period.ms ≤ now.ms

theorem catchUp_ok (now : Clock) {period date : EvTime} {rounds : ℕ} (hsec : 0 ≤ period.sec)
    (hmsec : 0 ≤ period.msec) (hperiod : 20 ≤ period.ms) (hnormal : Normal date)
    (hdate : 0 ≤ date.sec ∧ 0 ≤ date.msec) (hrounds : (now.ms - date.ms + 1).toNat < rounds) :
    ∃ date', catchUp now period rounds date = .ok date' ∧ Normal date' ∧ 0 ≤ date'.sec ∧
      0 ≤ date'.msec ∧ now.ms < date'.ms ∧ ∃ k : ℕ, date'.ms = date.ms + k * period.ms ∧
        (date.ms ≤ now.ms → date'.ms - period.ms ≤ now.ms) := by
  induction rounds generalizing date with
  | zero => exact absurd hrounds (Nat.not_lt_zero _)
  | succ rounds ih =>
      by_cases hdue : evtimeCmp now.toEvTime date ≥ 0
      · have hle := (due_iff now hnormal).mp hdue
        obtain ⟨next, hnext, hms, hbound, hnsec, hnmsec⟩ := evtimeAdd_ok date period
        have hn0 : 0 ≤ next.sec := le_trans (by omega) hnsec
        have hn1 : 0 ≤ next.msec := hnmsec (by omega)
        obtain ⟨date', hcatch, hnorm, h0, h1, hlt, k, hk, hlast⟩ :=
          ih (.inl ⟨hn0, hn1, hbound⟩) ⟨hn0, hn1⟩ (by omega)
        refine ⟨date', ?_, hnorm, h0, h1, hlt, k + 1, ?_, fun _ => ?_⟩
        · rw [catchUp, if_pos hdue, hnext]
          exact hcatch
        · rw [hk, hms]
          push_cast
          ring
        · -- the last step is made from a date that is due
          rcases le_or_gt next.ms now.ms with hstill | hdone
          · exact hlast hstill
          · have hzero : catchUp now period rounds next = .ok next := by
              cases rounds with
              | zero => omega
              | succ rounds =>
                  rw [catchUp, if_neg]
                  rw [due_iff now (.inl ⟨hn0, hn1, hbound⟩)]
                  omega
            rw [hcatch] at hzero
            cases hzero
            omega
      · have hlt : now.ms < date.ms := not_le.mp fun hle => hdue ((due_iff now hnormal).mpr hle)
        refine ⟨date, by rw [catchUp, if_neg hdue], hnormal, hdate.1, hdate.2, hlt, 0, by simp, ?_⟩
        intro hle
        exact absurd hle (not_le.mpr hlt)

end CatchUp

/-! ## A call of `timer_fire` -/

section Fire

variable {now : Clock} {timers posts after : List (EventTimer η)} {t ti : EventTimer η}

/-- What a call does: the timers whose dates are not after the clock have been posted,
in the order of the list; the periodic ones among them are kept, with later
dates, along with the timers that are not due. -/
structure Fired (now : Clock) (timers posts after : List (EventTimer η)) : Prop where
  posted : posts = timers.filter fun t => t.date.ms ≤ now.ms
  kept : ∃ late, List.Forall₂ (Advanced now) (posts.filter fun t => 0 < t.period.ms) late ∧
    after.Perm ((timers.filter fun t => now.ms < t.date.ms) ++ late)

theorem EventTimer.Proper.periodic_iff (h : t.Proper) :
    (t.period.sec > 0 ∨ t.period.msec > 0) ↔ 0 < t.period.ms := by
  rcases h.period with hzero | ⟨hsec, hmsec, -, hlong, -⟩
  · simp [hzero, EvTime.ms]
  · rw [EvTime.ms] at hlong ⊢
    omega

/-- A periodic timer that is due is put back behind the clock. -/
theorem EventTimer.Proper.advance (h : t.Proper) (hperiodic : 0 < t.period.ms)
    (hdue : t.date.ms ≤ now.ms) :
    ∃ date, catchUp now t.period ((now.ms - t.date.ms).toNat + 2) t.date = .ok date ∧
      EventTimer.Proper { t with date } ∧ Advanced now t { t with date } := by
  rcases h.period with hzero | ⟨hsec, hmsec, hmlt, hlong, hdate⟩
  · simp [hzero, EvTime.ms] at hperiodic
  obtain ⟨date, hcatch, hnormal, h0, h1, hlt, k, hk, hlast⟩ :=
    catchUp_ok now hsec hmsec hlong h.normal hdate
      (show (now.ms - t.date.ms + 1).toNat < (now.ms - t.date.ms).toNat + 2 by omega)
  exact ⟨date, hcatch, ⟨hnormal, .inr ⟨hsec, hmsec, hmlt, hlong, h0, h1⟩⟩,
    rfl, rfl, rfl, ⟨k, hk⟩, hlt, hlast hdue⟩

/-- When the first timer is not due, none is. -/
theorem Pending.none_due (h : Pending (ti :: timers)) (hti : now.ms < ti.date.ms) :
    ∀ t ∈ ti :: timers, now.ms < t.date.ms := by
  intro t ht
  rcases List.mem_cons.mp ht with rfl | ht
  · exact hti
  · exact hti.trans_le (List.rel_of_pairwise_cons h.instants ht)

theorem Fired.none (h : ∀ t ∈ timers, now.ms < t.date.ms) : Fired now timers [] timers := by
  refine ⟨?_, [], .nil, ?_⟩
  · exact (List.filter_eq_nil_iff.mpr fun t ht => by simpa using h t ht).symm
  · rw [List.append_nil, List.filter_eq_self.mpr fun t ht => by simpa using h t ht]

/-- A one-shot timer is dropped. -/
theorem Fired.oneShot (h : Fired now timers posts after) (hdue : ti.date.ms ≤ now.ms)
    (hperiod : ¬0 < ti.period.ms) : Fired now (ti :: timers) (ti :: posts) after := by
  obtain ⟨hposts, late, hlate, hperm⟩ := h
  refine ⟨?_, late, ?_, ?_⟩
  · rw [List.filter_cons_of_pos (by simpa using hdue), ← hposts]
  · rwa [List.filter_cons_of_neg (by simpa using hperiod)]
  · rwa [List.filter_cons_of_neg (by simpa using hdue)]

/-- A periodic timer goes back into the list, where it is not due again. -/
theorem Fired.periodic {ti' : EventTimer η} (h : Fired now (tiInsert ti' timers) posts after)
    (hdue : ti.date.ms ≤ now.ms) (hperiod : 0 < ti.period.ms) (hti : Advanced now ti ti') :
    Fired now (ti :: timers) (ti :: posts) after := by
  obtain ⟨hposts, late, hlate, hperm⟩ := h
  have hlater : now.ms < ti'.date.ms := hti.2.2.2.2.1
  refine ⟨?_, ti' :: late, ?_, ?_⟩
  · rw [List.filter_cons_of_pos (by simpa using hdue), hposts]
    rw [filter_tiInsert (by simpa using hlater)]
  · rw [List.filter_cons_of_pos (by simpa using hperiod)]
    exact .cons hti hlate
  · rw [List.filter_cons_of_neg (by simpa using hdue)]
    refine hperm.trans ((((tiInsert_perm ti' timers).filter _).append_right late).trans ?_)
    rw [List.filter_cons_of_pos (by simpa using hlater)]
    exact List.perm_middle.symm

/-- **The loop of `timer_fire`**: at the end no timer is due. -/
theorem fireLoop_ok (now : Clock) {rounds : ℕ} (h : Pending timers)
    (hrounds : (timers.filter fun t => t.date.ms ≤ now.ms).length < rounds) (queue : Queue η δ ℕ) :
    ∃ posts after, fireLoop now rounds timers queue = .ok (after, posts.foldl postTimer queue) ∧
      Fired now timers posts after ∧ Pending after ∧ ∀ t ∈ after, now.ms < t.date.ms := by
  induction rounds generalizing timers queue with
  | zero => exact absurd hrounds (Nat.not_lt_zero _)
  | succ rounds ih =>
      cases timers with
      | nil => exact ⟨[], [], rfl, .none (by simp), pending_nil, by simp⟩
      | cons ti timers =>
          have hproper := h.proper ti (by simp)
          have htail : Pending timers := h.sublist (List.sublist_cons_self _ _)
          by_cases hcmp : evtimeCmp now.toEvTime ti.date ≥ 0
          · have hdue := (due_iff now hproper.normal).mp hcmp
            rw [List.filter_cons_of_pos (by simpa using hdue), List.length_cons] at hrounds
            by_cases hperiod : 0 < ti.period.ms
            · obtain ⟨date, hcatch, hproper', hadvanced⟩ := hproper.advance hperiod hdue
              have hlater : now.ms < EvTime.ms date := hadvanced.2.2.2.2.1
              obtain ⟨posts, after, hloop, hfired, hpending, hnone⟩ := ih (htail.insert hproper')
                (by rw [filter_tiInsert (by simpa using hlater)]; omega) (postTimer queue ti)
              refine ⟨ti :: posts, after, ?_, hfired.periodic hdue hperiod hadvanced, hpending, hnone⟩
              rw [fireLoop, if_pos hcmp]
              simp only [if_pos (hproper.periodic_iff.mpr hperiod), hcatch, Bind.bind, Except.bind]
              exact hloop
            · obtain ⟨posts, after, hloop, hfired, hpending, hnone⟩ := ih htail (by omega)
                (postTimer queue ti)
              refine ⟨ti :: posts, after, ?_, hfired.oneShot hdue hperiod, hpending, hnone⟩
              rw [fireLoop, if_pos hcmp]
              simp only [if_neg (mt hproper.periodic_iff.mp hperiod)]
              exact hloop
          · have hlater : now.ms < ti.date.ms :=
              not_le.mp fun hle => hcmp ((due_iff now hproper.normal).mpr hle)
            have hnone := h.none_due hlater
            exact ⟨[], ti :: timers, by rw [fireLoop, if_neg hcmp]; rfl, .none hnone, h, hnone⟩

/-- The time to the earliest of these dates, and a day if it is not within a day. -/
structure LeastDelay (now : Clock) (after : List (EventTimer η)) (next : ℤ) : Prop where
  le_day : next ≤ 24 * 3600 * 1000
  le : ∀ t ∈ after, next ≤ t.date.ms - now.ms
  reached : next = 24 * 3600 * 1000 ∨ ∃ t ∈ after, next = t.date.ms - now.ms

theorem untilNext_ok (h : Pending after) (hnone : ∀ t ∈ after, now.ms < t.date.ms) :
    ∃ next, untilNext now after = .ok next ∧ LeastDelay now after next := by
  cases after with
  | nil => exact ⟨_, rfl, le_rfl, by simp, .inl rfl⟩
  | cons ti timers =>
      have hfirst : ∀ t ∈ ti :: timers, ti.date.ms ≤ t.date.ms := by
        intro t ht
        rcases List.mem_cons.mp ht with rfl | ht
        · exact le_rfl
        · exact List.rel_of_pairwise_cons h.instants ht
      have hlater := hnone ti (by simp)
      obtain ⟨diff, hsub, hms, hle, hpos⟩ := evtimeSub_ok ti.date now.toEvTime
      have hnormal := (h.proper ti (by simp)).normal
      have hclock := now.sec_nonneg
      have hmsec : 0 ≤ diff.msec := by
        apply hpos
        have := now.msec_lt
        have := now.msec_nonneg
        unfold Normal at hnormal
        rw [EvTime.ms, EvTime.ms] at hlater
        omega
      have hdiff : diff.sec * 1000 + diff.msec = ti.date.ms - now.ms := by
        rw [← hms, EvTime.ms, mul_comm]
      refine ⟨_, by rw [untilNext, hsub]; rfl, ?_⟩
      split
      case isTrue hday =>
        refine ⟨by omega, fun t ht => ?_, .inr ⟨ti, by simp, hdiff⟩⟩
        have := hfirst t ht
        omega
      case isFalse hday =>
        refine ⟨le_rfl, fun t ht => ?_, .inl rfl⟩
        have := hfirst t ht
        omega

end Fire

/-! ## Runs -/

/-- The calls that change the list of timers. -/
inductive TimerOp (η δ : Type)
  | add (now : Clock) (handle : ℕ) (handler : Option η) (delay period : ℤ)
  | abs (handle : ℕ) (handler : Option η) (date : ℚ)
  | del (handle : ℕ)
  | finalize (handler : η)
  | fire (now : Clock) (queue : Queue η δ ℕ)

section Runs

variable [DecidableEq η] {timers timers' : List (EventTimer η)}

/-- The list after a call. -/
def TimerOp.perform (op : TimerOp η δ) (timers : List (EventTimer η)) :
    Except Fault (List (EventTimer η)) :=
  match op with
  | .add now handle handler delay period => timerAdd now handle handler delay period timers
  | .abs handle handler date => timerAbs handle handler date timers
  | .del handle => .ok (timerDel handle timers)
  | .finalize handler => .ok (tiFinalize handler timers)
  | .fire now queue => (timerFire now timers queue).map Prod.fst

/-- The list after a sequence of calls; a call that raises an error does not change it. -/
def TimerOp.run (ops : List (TimerOp η δ)) : List (EventTimer η) :=
  ops.foldl (fun timers op => (op.perform timers).toOption.getD timers) []

omit [DecidableEq η] in
/-- **What a call of `timer_fire` does** to a list that keeps the invariant. -/
theorem Pending.timerFire (h : Pending timers) (now : Clock) (queue : Queue η δ ℕ) :
    ∃ posts after next, timerFire now timers queue =
        .ok (after, posts.foldl postTimer queue, next) ∧
      Fired now timers posts after ∧ Pending after ∧ LeastDelay now after next := by
  obtain ⟨posts, after, hloop, hfired, hpending, hnone⟩ := fireLoop_ok now h
    (Nat.lt_succ_of_le (List.length_filter_le _ timers)) queue
  obtain ⟨next, hnext, hleast⟩ := untilNext_ok hpending hnone
  refine ⟨posts, after, next, ?_, hfired, hpending, hleast⟩
  simp only [Event.timerFire, hloop, hnext, Bind.bind, Except.bind]

theorem Pending.perform {op : TimerOp η δ} (h : Pending timers)
    (hop : op.perform timers = .ok timers') : Pending timers' := by
  cases op with
  | add now handle handler delay period => exact h.timerAdd hop
  | abs handle handler date => exact h.timerAbs hop
  | del handle =>
      cases hop
      exact h.sublist List.eraseP_sublist
  | finalize handler =>
      cases hop
      exact h.sublist List.filter_sublist
  | fire now queue =>
      obtain ⟨posts, after, next, hfire, -, hpending, -⟩ := h.timerFire now queue
      rw [TimerOp.perform, hfire] at hop
      cases hop
      exact hpending

/-- **The list of timers keeps its invariant in every run.** -/
theorem pending_run (ops : List (TimerOp η δ)) : Pending (TimerOp.run ops) := by
  unfold TimerOp.run
  generalize hstart : ([] : List (EventTimer η)) = start
  have h : Pending start := hstart ▸ pending_nil
  clear hstart
  induction ops generalizing start with
  | nil => exact h
  | cons op ops ih =>
      apply ih
      show Pending ((op.perform start).toOption.getD start)
      cases hop : op.perform start with
      | error _ => exact h
      | ok timers => exact h.perform hop

end Runs

/-- **`timer_fire` is exact**, for every list of timers that a run of the program can
come to. -/
theorem timer_fire_exact [DecidableEq η] :
    (∀ ops : List (TimerOp η δ), Pending (TimerOp.run ops)) ∧
      ∀ (now : Clock) (timers : List (EventTimer η)) (queue : Queue η δ ℕ), Pending timers →
        ∃ posts after next, timerFire now timers queue =
            .ok (after, posts.foldl postTimer queue, next) ∧
          Fired now timers posts after ∧
          (posts.Pairwise fun t t' => t.date.ms ≤ t'.date.ms) ∧
          (after.Pairwise fun t t' => t.date.ms ≤ t'.date.ms) ∧ LeastDelay now after next := by
  refine ⟨pending_run, fun now timers queue h => ?_⟩
  obtain ⟨posts, after, next, hfire, hfired, hpending, hleast⟩ := h.timerFire now queue
  refine ⟨posts, after, next, hfire, hfired, ?_, hpending.instants, hleast⟩
  rw [hfired.posted]
  exact h.instants.sublist List.filter_sublist

/-- Two dates of one instant, the second one of a periodic timer. -/
def twoTimers : List (EventTimer Unit) :=
  [⟨0, ⟨5, 1000⟩, ⟨0, 0⟩, ()⟩, ⟨1, ⟨6, 0⟩, ⟨0, 250⟩, ()⟩]

theorem pending_twoTimers : Pending twoTimers where
  proper t ht := by
    rcases List.mem_pair.mp ht with rfl | rfl
    · exact ⟨.inl ⟨by decide, by decide, by decide⟩, .inl rfl⟩
    · exact ⟨.inl ⟨by decide, by decide, by decide⟩,
        .inr ⟨by decide, by decide, by decide, by decide, by decide, by decide⟩⟩
  sorted := by simp [twoTimers, evtimeCmp]

theorem timer_fire_exact_twoTimers :
    ∃ posts after next, timerFire (δ := Unit) ⟨⟨6, 300⟩, by decide, by decide, by decide⟩ twoTimers
        (init Unit Unit ℕ) = .ok (after, posts.foldl postTimer (init Unit Unit ℕ), next) ∧
      Fired ⟨⟨6, 300⟩, by decide, by decide, by decide⟩ twoTimers posts after ∧
      (posts.Pairwise fun t t' => t.date.ms ≤ t'.date.ms) ∧
      (after.Pairwise fun t t' => t.date.ms ≤ t'.date.ms) ∧
      LeastDelay ⟨⟨6, 300⟩, by decide, by decide, by decide⟩ after next :=
  timer_fire_exact.2 _ twoTimers (init Unit Unit ℕ) pending_twoTimers

end Lush.Event
