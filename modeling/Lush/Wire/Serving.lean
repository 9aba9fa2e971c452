import Lush.Wire.Server

/-!
# Serving without errors

What a call of `serve-once` does when nothing in it signals an error, and that it does not
return otherwise.  Each operation `Does` some happenings; operations one after the other do the
happenings of both (`Does.andThen`).
-/

namespace Lush.Wire

variable {σ ν : Type} {c : Codec ν} {h : Handlers σ ν} {hooks : Hooks σ} {now : ℤ}
  {srv srv' : Server σ} {fd : ℕ} {m : Message} {es es' : List Happening}

/-! ## Happenings one after the other -/

theorem calm_append (writable : ℕ → Bool) (s : σ) (es es' : List Happening) :
    Calm c h hooks writable s (es ++ es') ↔
      Calm c h hooks writable s es ∧ Calm c h hooks writable (after c h hooks s es) es' := by
  induction es generalizing s with
  | nil => exact ⟨fun hcalm => ⟨trivial, hcalm⟩, fun hcalm => hcalm.2⟩
  | cons e es ih =>
      show e.Calm c h hooks writable s ∧ Calm c h hooks writable _ (es ++ es') ↔ _
      rw [ih, ← and_assoc]
      exact Iff.rfl

theorem after_append (s : σ) (es es' : List Happening) :
    after c h hooks s (es ++ es') = after c h hooks (after c h hooks s es) es' :=
  List.foldl_append

theorem replies_append (s : σ) (es es' : List Happening) :
    replies c h hooks fd s (es ++ es') =
      replies c h hooks fd s es ++ replies c h hooks fd (after c h hooks s es) es' := by
  induction es generalizing s with
  | nil => rfl
  | cons e es ih =>
      show e.reply c h s fd ++ replies c h hooks fd _ (es ++ es') = _
      rw [ih, ← List.append_assoc]
      rfl

/-- **An operation does some happenings**: it signals no error exactly if none of them does, and
then it leaves what they leave and sends what they send. -/
structure Does (c : Codec ν) (h : Handlers σ ν) (hooks : Hooks σ) (srv : Server σ)
    (es : List Happening) (r : Result σ) : Prop where
  ok_iff : r.1 = .ok () ↔ Calm c h hooks srv.writable srv.handlers es
  handlers : r.1 = .ok () → r.2.handlers = after c h hooks srv.handlers es
  sent : r.1 = .ok () → ∀ fd, r.2.sent fd = srv.sent fd ++ replies c h hooks fd srv.handlers es
  writable : r.2.writable = srv.writable
  idleTimeout : r.2.idleTimeout = srv.idleTimeout

theorem Does.nil (srv : Server σ) : Does c h hooks srv [] (.ok (), srv) where
  ok_iff := ⟨fun _ => trivial, fun _ => rfl⟩
  handlers := fun _ => rfl
  sent := fun _ _ => (List.append_nil _).symm
  writable := rfl
  idleTimeout := rfl

theorem Does.andThen {r : Result σ} {f : Server σ → Result σ} (hr : Does c h hooks srv es r)
    (hf : r.1 = .ok () → Does c h hooks r.2 es' (f r.2)) :
    Does c h hooks srv (es ++ es') (r.andThen f) := by
  obtain ⟨x, srv1⟩ := r
  cases x with
  | error e =>
      have hnot : ¬Calm c h hooks srv.writable srv.handlers es :=
        fun hcalm => (nomatch hr.ok_iff.mpr hcalm)
      refine ⟨⟨fun hok => (nomatch hok), fun hcalm => ?_⟩, fun hok => (nomatch hok),
        fun hok => (nomatch hok), hr.writable, hr.idleTimeout⟩
      exact absurd ((calm_append _ _ _ _).mp hcalm).1 hnot
  | ok u =>
      have hcalm : Calm c h hooks srv.writable srv.handlers es := hr.ok_iff.mp rfl
      have hhandlers : srv1.handlers = after c h hooks srv.handlers es := hr.handlers rfl
      have hsent := hr.sent rfl
      have hthen : Does c h hooks srv1 es' (f srv1) := hf rfl
      refine ⟨?_, ?_, ?_, hthen.writable.trans hr.writable,
        hthen.idleTimeout.trans hr.idleTimeout⟩
      · have hok_iff := hthen.ok_iff
        rw [hhandlers, show srv1.writable = srv.writable from hr.writable] at hok_iff
        rw [calm_append]
        exact hok_iff.trans (and_iff_right hcalm).symm
      · intro hok
        rw [after_append, ← hhandlers]
        exact hthen.handlers hok
      · intro hok fd
        rw [replies_append, ← hhandlers, ← List.append_assoc, ← hsent fd]
        exact hthen.sent hok fd

theorem Result.andThen_ok {r : Result σ} {f : Server σ → Result σ}
    (hok : (r.andThen f).1 = .ok ()) : r.1 = .ok () ∧ r.andThen f = f r.2 := by
  obtain ⟨_ | u, srv1⟩ := r
  · cases hok
  · exact ⟨rfl, rfl⟩

/-- The operation is done by a server with other readers. -/
theorem Does.of_same {r : Result σ} (hr : Does c h hooks srv' es r)
    (hhandlers : srv'.handlers = srv.handlers) (hsent : srv'.sent = srv.sent)
    (hwritable : srv'.writable = srv.writable) (hidle : srv'.idleTimeout = srv.idleTimeout) :
    Does c h hooks srv es r where
  ok_iff := by
    rw [← hhandlers, ← hwritable]
    exact hr.ok_iff
  handlers := by
    rw [← hhandlers]
    exact hr.handlers
  sent := by
    rw [← hhandlers, ← hsent]
    exact hr.sent
  writable := hr.writable.trans hwritable
  idleTimeout := hr.idleTimeout.trans hidle

/-! ## The operations -/

theorem does_addClient (srv : Server σ) (fd : ℕ) :
    Does c h hooks srv [.connect fd] (srv.addClient hooks now fd) := by
  refine ⟨?_, fun _ => rfl, fun _ _ => (List.append_nil _).symm, rfl, rfl⟩
  show (if (hooks.onConnect srv.handlers fd).1 then Except.ok () else _) = Except.ok () ↔
    (hooks.onConnect srv.handlers fd).1 = true ∧ True
  cases (hooks.onConnect srv.handlers fd).1 <;> simp

theorem does_removeClient (srv : Server σ) (fd : ℕ) :
    Does c h hooks srv [.disconnect fd] (srv.removeClient hooks fd) := by
  refine ⟨?_, fun _ => rfl, fun _ _ => (List.append_nil _).symm, rfl, rfl⟩
  show (if (hooks.onDisconnect srv.handlers fd).1 then Except.ok () else _) = Except.ok () ↔
    (hooks.onDisconnect srv.handlers fd).1 = true ∧ True
  cases (hooks.onDisconnect srv.handlers fd).1 <;> simp

/-- **A message is harmless** exactly if it is answered, and the answer can be written. -/
theorem harmless_iff (c : Codec ν) (h : Handlers σ ν) (writable : Bool) (s : σ) (fd : ℕ)
    (m : Message) : Harmless c h writable s fd m ↔ ∃ reply,
      (handleMessage c h s fd m).1 = .ok reply ∧ (reply.isSome = true → writable = true) := by
  unfold Harmless handleMessage
  cases c.decodeRequest m with
  | error e => simp
  | ok decoded =>
      obtain ⟨encoding, payload⟩ := decoded
      simp only [Except.ok.injEq, Prod.mk.injEq, and_assoc]
      by_cases hsync : m.msgType = msgSync
      · -- the request is evaluated and answered
        simp only [if_pos hsync]
        cases hexpr : c.decodeExpr encoding payload with
        | error e => simp [hexpr]
        | ok expr =>
            rcases hresult : h.onSync s fd expr encoding with ⟨_ | result, s'⟩
            · simp [hexpr, hresult]
            · cases hencoded : c.encodeResult (m.encoding = encCompressed) encoding result with
              | error e => simp [hexpr, hresult, hencoded]
              | ok encoded =>
                  obtain ⟨enc, bytes⟩ := encoded
                  simp [hexpr, hresult, hencoded]
      · simp only [if_neg hsync]
        by_cases hm : m.msgType = msgAsync
        · -- the request is evaluated
          simp only [if_pos hm]
          cases hexpr : c.decodeExpr encoding payload with
          | error e => simp [hexpr]
          | ok expr =>
              rcases hresult : h.onAsync s fd expr encoding with ⟨_ | result, s'⟩
              · simp [hexpr, hresult]
              · simp [hexpr, hresult]
        · simp only [if_neg hm]
          by_cases hping : m.msgType = msgHeartbeat
          · simp [hping]
          · simp [hping]

theorem does_handle (srv : Server σ) (fd : ℕ) (m : Message) :
    Does c h hooks srv [.message fd m] (srv.handle c h fd m) := by
  have hcalm : Calm c h hooks srv.writable srv.handlers [.message fd m] ↔ ∃ reply,
      (handleMessage c h srv.handlers fd m).1 = .ok reply ∧
        (reply.isSome = true → srv.writable fd = true) := by
    rw [← harmless_iff]
    exact and_iff_left trivial
  have hreply (fd' : ℕ) : replies c h hooks fd' srv.handlers [.message fd m] =
      (Happening.message fd m).reply c h srv.handlers fd' := List.append_nil _
  have hafter : after c h hooks srv.handlers [.message fd m] =
      (handleMessage c h srv.handlers fd m).2 := rfl
  unfold Server.handle
  rcases hresult : handleMessage c h srv.handlers fd m with ⟨e | _ | frame, s⟩
  · -- an error
    rw [hresult] at hcalm
    refine ⟨⟨fun hok => (nomatch hok), fun hc => ?_⟩, fun hok => (nomatch hok),
      fun hok => (nomatch hok), rfl, rfl⟩
    obtain ⟨reply, hok, -⟩ := hcalm.mp hc
    cases hok
  · -- no answer
    rw [hresult] at hcalm hafter
    refine ⟨⟨fun _ => hcalm.mpr ⟨none, rfl, fun hsome => (nomatch hsome)⟩, fun _ => rfl⟩,
      fun _ => hafter.symm, fun _ fd' => ?_, rfl, rfl⟩
    rw [hreply]
    simp only [Happening.reply, hresult, ite_self, List.append_nil]
  · rw [hresult] at hcalm hafter
    by_cases hwritable : srv.writable fd = true
    · -- the answer is sent
      have hsend : Server.sendMessage { srv with handlers := s } fd frame =
          (.ok (), { srv with
            handlers := s
            sent := Function.update srv.sent fd (srv.sent fd ++ [frame]) }) := if_pos hwritable
      simp only [hsend]
      refine ⟨⟨fun _ => hcalm.mpr ⟨some frame, rfl, fun _ => hwritable⟩, fun _ => rfl⟩,
        fun _ => hafter.symm, fun _ fd' => ?_, rfl, rfl⟩
      rw [hreply]
      by_cases hfd : fd = fd'
      · subst hfd
        simp only [Happening.reply, hresult, if_true, Function.update_self]
      · simp only [Happening.reply, if_neg hfd, List.append_nil]
        exact Function.update_of_ne (Ne.symm hfd) _ _
    · have hsend : Server.sendMessage { srv with handlers := s } fd frame =
          (.error (.error "failed to write message"), { srv with handlers := s }) :=
        if_neg hwritable
      simp only [hsend]
      refine ⟨⟨fun hok => (nomatch hok), fun hc => ?_⟩, fun hok => (nomatch hok),
        fun hok => (nomatch hok), rfl, rfl⟩
      obtain ⟨reply, hok, hreply⟩ := hcalm.mp hc
      obtain rfl := Except.ok.inj hok
      exact absurd (hreply rfl) hwritable

/-- What the handling of a message leaves alone. -/
theorem handle_readers (srv : Server σ) (fd : ℕ) (m : Message) :
    ∃ handlers sent, (srv.handle c h fd m).2 =
      { srv with handlers := handlers, sent := sent } := by
  unfold Server.handle
  rcases handleMessage c h srv.handlers fd m with ⟨e | _ | frame, s⟩
  · exact ⟨s, srv.sent, rfl⟩
  · exact ⟨s, srv.sent, rfl⟩
  · by_cases hwritable : srv.writable fd = true
    · refine ⟨s, Function.update srv.sent fd (srv.sent fd ++ [frame]), ?_⟩
      simp only [Server.sendMessage, if_pos hwritable]
    · refine ⟨s, srv.sent, ?_⟩
      simp only [Server.sendMessage, if_neg hwritable]

/-! ## The clients that are ready -/

/-- **Reading from a client** does what is delivered for it. -/
theorem does_drain (calls : ℕ) (srv : Server σ) (fd : ℕ) {state : ReadState}
    (hstate : srv.clientState fd = some state) {ds : List Delivery} {state' : ReadState}
    {k' : Socket} (hdrained : drained calls state (srv.sockets fd) = .ok (ds, state', k')) :
    Does c h hooks srv (ds.map (Delivery.happening fd)) (srv.drain c h hooks now calls fd) ∧
      ((srv.drain c h hooks now calls fd).1 = .ok () →
        (srv.drain c h hooks now calls fd).2.sockets fd = k') := by
  induction calls generalizing srv state ds with
  | zero => cases hdrained
  | succ calls ih =>
      rw [drained] at hdrained
      cases hread : tryReadClient state (srv.sockets fd) with
      | error e =>
          rw [hread] at hdrained
          cases hdrained
      | ok read =>
          obtain ⟨outcome, s1, k1⟩ := read
          rw [hread] at hdrained
          cases outcome with
          | partial_ =>
              obtain ⟨rfl, hrest⟩ := Prod.mk.inj (Except.ok.inj hdrained)
              obtain ⟨rfl, rfl⟩ := Prod.mk.inj hrest
              rw [Server.drain, hstate]
              simp only [hread]
              exact ⟨(Does.nil _).of_same rfl rfl rfl rfl, fun _ => Function.update_self ..⟩
          | disconnect =>
              obtain ⟨rfl, hrest⟩ := Prod.mk.inj (Except.ok.inj hdrained)
              obtain ⟨rfl, rfl⟩ := Prod.mk.inj hrest
              rw [Server.drain, hstate]
              simp only [hread]
              exact ⟨(does_removeClient _ fd).of_same rfl rfl rfl rfl,
                fun _ => Function.update_self ..⟩
          | message m =>
              change (drained calls s1 k1 >>= fun r =>
                Except.ok (Delivery.message m :: r.1, r.2.1, r.2.2)) = _ at hdrained
              obtain ⟨⟨ds', s2, k2⟩, hrest, heq⟩ := bind_ok.mp hdrained
              obtain ⟨rfl, hpair⟩ := Prod.mk.inj (Except.ok.inj heq)
              obtain ⟨rfl, rfl⟩ := Prod.mk.inj hpair
              rw [Server.drain, hstate]
              simp only [hread]
              -- the state of the reader is set before the message is handled
              let srv1 : Server σ := (srv.touch fd now).read fd s1 k1
              obtain ⟨handlers, sent, hreaders⟩ := handle_readers (c := c) (h := h) srv1 fd m
              have hstate1 : (srv1.handle c h fd m).2.clientState fd = some s1 := by
                rw [hreaders]
                exact Function.update_self ..
              have hsocket1 : (srv1.handle c h fd m).2.sockets fd = k1 := by
                rw [hreaders]
                exact Function.update_self ..
              obtain ⟨hdoes, hsocket⟩ :=
                ih (srv1.handle c h fd m).2 hstate1 (by rw [hsocket1]; exact hrest)
              have hfirst : Does c h hooks srv [.message fd m] (srv1.handle c h fd m) :=
                (does_handle srv1 fd m).of_same rfl rfl rfl rfl
              refine ⟨hfirst.andThen (fun _ => hdoes), ?_⟩
              intro hok
              obtain ⟨-, heq⟩ := Result.andThen_ok hok
              rw [heq] at hok ⊢
              exact hsocket hok

/-- A receive outside of the buffer is an error. -/
theorem drain_overrun (c : Codec ν) (h : Handlers σ ν) (hooks : Hooks σ) (now : ℤ) (calls : ℕ) (srv : Server σ) (fd : ℕ) {state : ReadState}
    (hstate : srv.clientState fd = some state) {e : Fault}
    (hdrained : drained calls state (srv.sockets fd) = .error e) :
    (srv.drain c h hooks now calls fd).1 ≠ .ok () := by
  induction calls generalizing srv state with
  | zero => exact fun hok => (nomatch hok)
  | succ calls ih =>
      rw [drained] at hdrained
      rw [Server.drain, hstate]
      cases hread : tryReadClient state (srv.sockets fd) with
      | error e =>
          simp only [hread]
          exact fun hok => (nomatch hok)
      | ok read =>
          obtain ⟨outcome, s1, k1⟩ := read
          rw [hread] at hdrained
          cases outcome with
          | partial_ => cases hdrained
          | disconnect => cases hdrained
          | message m =>
              simp only [hread]
              let srv1 : Server σ := (srv.touch fd now).read fd s1 k1
              obtain ⟨handlers, sent, hreaders⟩ := handle_readers (c := c) (h := h) srv1 fd m
              have hstate1 : (srv1.handle c h fd m).2.clientState fd = some s1 := by
                rw [hreaders]
                exact Function.update_self ..
              have hsocket1 : (srv1.handle c h fd m).2.sockets fd = k1 := by
                rw [hreaders]
                exact Function.update_self ..
              have hrest : drained calls s1 k1 = .error e := by
                change (drained calls s1 k1 >>= fun r =>
                  Except.ok (Delivery.message m :: r.1, r.2.1, r.2.2)) = _ at hdrained
                cases hagain : drained calls s1 k1 with
                | error e' =>
                    rw [hagain] at hdrained
                    exact hdrained
                | ok r =>
                    rw [hagain] at hdrained
                    cases hdrained
              intro hok
              obtain ⟨-, heq⟩ := Result.andThen_ok hok
              rw [heq] at hok
              exact ih _ hstate1 (by rw [hsocket1]; exact hrest) hok

/-! ## What is left alone -/

/-- Only the clients of `fds` are read from or removed, and those of them that stay are active. -/
structure Confined (now : ℤ) (fds : Set ℕ) (srv srv' : Server σ) : Prop where
  writable : srv'.writable = srv.writable
  idleTimeout : srv'.idleTimeout = srv.idleTimeout
  clientState : ∀ fd ∉ fds, srv'.clientState fd = srv.clientState fd
  sockets : ∀ fd ∉ fds, srv'.sockets fd = srv.sockets fd
  lastActivity : ∀ fd ∉ fds, srv'.lastActivity fd = srv.lastActivity fd
  active : ∀ fd ∈ fds, fd ∈ srv'.clientFds → srv'.lastActivity fd = now
  clientFds : ∃ p : ℕ → Bool, srv'.clientFds = srv.clientFds.filter p ∧ ∀ fd ∉ fds, p fd = true

theorem Confined.trans {fds fds' : Set ℕ} {srv srv1 srv2 : Server σ} (h1 : Confined now fds srv srv1)
    (h2 : Confined now fds' srv1 srv2) : Confined now (fds ∪ fds') srv srv2 := by
  obtain ⟨p, hp, hkeep⟩ := h1.clientFds
  obtain ⟨p', hp', hkeep'⟩ := h2.clientFds
  have hout {fd : ℕ} (hfd : fd ∉ fds ∪ fds') : fd ∉ fds ∧ fd ∉ fds' :=
    ⟨fun hmem => hfd (.inl hmem), fun hmem => hfd (.inr hmem)⟩
  refine ⟨h2.writable.trans h1.writable, h2.idleTimeout.trans h1.idleTimeout, ?_, ?_, ?_, ?_, ?_⟩
  · intro fd hfd
    rw [h2.clientState fd (hout hfd).2, h1.clientState fd (hout hfd).1]
  · intro fd hfd
    rw [h2.sockets fd (hout hfd).2, h1.sockets fd (hout hfd).1]
  · intro fd hfd
    rw [h2.lastActivity fd (hout hfd).2, h1.lastActivity fd (hout hfd).1]
  · intro fd hfd hmem
    by_cases hfd' : fd ∈ fds'
    · exact h2.active fd hfd' hmem
    · rw [h2.lastActivity fd hfd']
      apply h1.active fd (hfd.resolve_right hfd')
      rw [hp'] at hmem
      exact (List.mem_filter.mp hmem).1
  · refine ⟨fun fd => p fd && p' fd, ?_, ?_⟩
    · rw [hp', hp, List.filter_filter]
      exact List.filter_congr (fun fd _ => Bool.and_comm _ _)
    · intro fd hfd
      show (p fd && p' fd) = true
      rw [hkeep fd (hout hfd).1, hkeep' fd (hout hfd).2]
      rfl

theorem Confined.refl (now : ℤ) (srv : Server σ) : Confined now ∅ srv srv where
  writable := rfl
  idleTimeout := rfl
  clientState _ _ := rfl
  sockets _ _ := rfl
  lastActivity _ _ := rfl
  active _ hfd := absurd hfd (Set.notMem_empty _)
  clientFds := ⟨fun _ => true, (List.filter_true _).symm, fun _ _ => rfl⟩

theorem confined_handle (now : ℤ) (srv : Server σ) (fd : ℕ) (m : Message) :
    Confined now ∅ srv (srv.handle c h fd m).2 := by
  obtain ⟨handlers, sent, hreaders⟩ := handle_readers (c := c) (h := h) srv fd m
  rw [hreaders]
  exact ⟨rfl, rfl, fun _ _ => rfl, fun _ _ => rfl, fun _ _ => rfl,
    fun fd hfd => absurd hfd (Set.notMem_empty _), (Confined.refl now srv).clientFds⟩

theorem confined_removeClient (hooks : Hooks σ) (now : ℤ) (srv : Server σ) (fd : ℕ) :
    Confined now {fd} srv (srv.removeClient hooks fd).2 := by
  refine ⟨rfl, rfl, fun fd' hfd => Function.update_of_ne hfd _ _, fun _ _ => rfl, fun _ _ => rfl,
    ?_, fun fd' => decide (fd' ≠ fd), rfl, fun fd' hfd => decide_eq_true hfd⟩
  intro fd' hfd hmem
  have hne := of_decide_eq_true (List.mem_filter.mp hmem).2
  exact absurd hfd hne

theorem confined_touch (now : ℤ) (srv : Server σ) (fd : ℕ) :
    Confined now {fd} srv (srv.touch fd now) := by
  refine ⟨rfl, rfl, fun _ _ => rfl, fun _ _ => rfl,
    fun fd' hfd => Function.update_of_ne hfd _ _, ?_,
    fun _ => true, (List.filter_true _).symm, fun _ _ => rfl⟩
  intro fd' hfd _
  rw [Set.mem_singleton_iff.mp hfd]
  exact Function.update_self ..

theorem confined_read (now : ℤ) (srv : Server σ) (fd : ℕ) (state : ReadState) (k : Socket) :
    Confined now {fd} srv ((srv.touch fd now).read fd state k) := by
  have htouch := confined_touch now srv fd
  exact ⟨rfl, rfl, fun fd' hfd => Function.update_of_ne hfd _ _,
    fun fd' hfd => Function.update_of_ne hfd _ _, htouch.lastActivity, htouch.active,
    htouch.clientFds⟩

/-- What reading from a client leaves alone. -/
theorem confined_drain (calls : ℕ) (srv : Server σ) (fd : ℕ) :
    Confined now {fd} srv (srv.drain c h hooks now calls fd).2 := by
  induction calls generalizing srv with
  | zero => exact confined_touch now srv fd
  | succ calls ih =>
      rw [Server.drain]
      cases hstate : srv.clientState fd with
      | none => exact confined_removeClient hooks now srv fd
      | some state =>
          simp only
          rcases tryReadClient state (srv.sockets fd) with e | ⟨_ | _ | m, s1, k1⟩
          · exact confined_touch now srv fd
          · exact confined_read now srv fd s1 k1
          · have hconfined := (confined_read now srv fd s1 k1).trans
              (confined_removeClient hooks now _ fd)
            rwa [Set.union_self] at hconfined
          · have hconfined := (confined_read now srv fd s1 k1).trans
              (confined_handle (c := c) (h := h) now _ fd m)
            rw [Set.union_empty] at hconfined
            show Confined now {fd} srv
              ((((srv.touch fd now).read fd s1 k1).handle c h fd m).andThen _).2
            rcases hresult : ((srv.touch fd now).read fd s1 k1).handle c h fd m with ⟨_ | u, srv1⟩
            · rw [hresult] at hconfined
              exact hconfined
            · rw [hresult] at hconfined
              have hboth := hconfined.trans (ih srv1)
              rwa [Set.union_self] at hboth

/-- **What happens at a client that is ready.** -/
theorem does_client (srv : Server σ) (fd : ℕ) :
    Does c h hooks srv (srv.clientHappenings fd)
      (srv.drain c h hooks now ((srv.sockets fd).size + 1) fd) := by
  have hconfined : Confined now {fd} srv (srv.drain c h hooks now ((srv.sockets fd).size + 1) fd).2 :=
    confined_drain _ srv fd
  unfold Server.clientHappenings
  cases hstate : srv.clientState fd with
  | none =>
      rw [Server.drain, hstate]
      exact does_removeClient srv fd
  | some state =>
      cases hdrained : drained ((srv.sockets fd).size + 1) state (srv.sockets fd) with
      | ok r =>
          obtain ⟨ds, state', k'⟩ := r
          simp only [hdrained]
          exact (does_drain _ srv fd hstate hdrained).1
      | error e =>
          have herror := drain_overrun c h hooks now _ srv fd hstate hdrained
          simp only [hdrained]
          exact ⟨⟨fun hok => absurd hok herror, fun hcalm => hcalm.1.elim⟩,
            fun hok => absurd hok herror, fun hok => absurd hok herror, hconfined.writable,
            hconfined.idleTimeout⟩

/-- **The clients that are ready, one after the other.** -/
theorem does_drainAll (c : Codec ν) (h : Handlers σ ν) (hooks : Hooks σ) (now : ℤ) (fds : List ℕ) (hnodup : fds.Nodup) (srv : Server σ) :
    Does c h hooks srv (fds.flatMap srv.clientHappenings) (srv.drainAll c h hooks now fds) ∧
      ((srv.drainAll c h hooks now fds).1 = .ok () →
        Confined now {fd | fd ∈ fds} srv (srv.drainAll c h hooks now fds).2) := by
  induction fds generalizing srv with
  | nil =>
      refine ⟨Does.nil srv, fun _ => ?_⟩
      have hset : {fd : ℕ | fd ∈ ([] : List ℕ)} = ∅ := by
        ext fd
        simp
      rw [hset]
      exact Confined.refl now srv
  | cons fd fds ih =>
      obtain ⟨hfd, hnodup⟩ := List.nodup_cons.mp hnodup
      have hconfined : Confined now {fd} srv
          (srv.drain c h hooks now ((srv.sockets fd).size + 1) fd).2 := confined_drain _ srv fd
      -- the other clients are as before
      have hothers : fds.flatMap
          (srv.drain c h hooks now ((srv.sockets fd).size + 1) fd).2.clientHappenings =
            fds.flatMap srv.clientHappenings := by
        apply List.flatMap_congr
        intro fd' hfd'
        have hne : fd' ∉ ({fd} : Set ℕ) := fun heq => hfd (Set.mem_singleton_iff.mp heq ▸ hfd')
        unfold Server.clientHappenings
        rw [hconfined.clientState fd' hne, hconfined.sockets fd' hne]
      obtain ⟨hrest, hrestConfined⟩ :=
        ih hnodup (srv.drain c h hooks now ((srv.sockets fd).size + 1) fd).2
      rw [hothers] at hrest
      refine ⟨(does_client srv fd).andThen (fun _ => hrest), ?_⟩
      intro hok
      obtain ⟨-, heq⟩ := Result.andThen_ok hok
      rw [Server.drainAll] at hok ⊢
      rw [heq] at hok ⊢
      have hboth := hconfined.trans (hrestConfined hok)
      have hset : ({fd} : Set ℕ) ∪ {fd' | fd' ∈ fds} = {fd' | fd' ∈ fd :: fds} := by
        ext fd'
        simp
      rwa [hset] at hboth

/-- Clients are removed. -/
theorem does_removeAll (fds : List ℕ) (srv : Server σ) :
    Does c h hooks srv (fds.map .disconnect) (srv.removeAll hooks fds) := by
  induction fds generalizing srv with
  | nil => exact Does.nil srv
  | cons fd fds ih =>
      exact (does_removeClient srv fd).andThen (fun _ => ih (srv.removeClient hooks fd).2)

/-- A connection is accepted. -/
theorem does_accept (srv : Server σ) (accepted : Option (ℕ × Bool)) :
    Does c h hooks srv (Server.acceptHappenings accepted) (srv.accept hooks now accepted) := by
  rcases accepted with _ | ⟨fd, _ | _⟩
  · exact Does.nil srv
  · exact Does.nil srv
  · exact does_addClient srv fd

/-- What a new connection leaves alone. -/
theorem accept_spec (hooks : Hooks σ) (srv : Server σ) (b : Batch srv) :
    ∃ l : List ℕ, (srv.accept hooks b.now b.accepted).2.clientFds = srv.clientFds ++ l ∧
      (∀ fd ∈ l, (srv.accept hooks b.now b.accepted).2.lastActivity fd = b.now ∧
        fd ∉ srv.clientFds) ∧
      (∀ fd ∈ srv.clientFds,
        (srv.accept hooks b.now b.accepted).2.clientState fd = srv.clientState fd ∧
        (srv.accept hooks b.now b.accepted).2.lastActivity fd = srv.lastActivity fd) ∧
      (srv.accept hooks b.now b.accepted).2.sockets = srv.sockets ∧
      (srv.accept hooks b.now b.accepted).2.idleTimeout = srv.idleTimeout := by
  have hsame : ∃ l : List ℕ, srv.clientFds = srv.clientFds ++ l ∧
      (∀ fd ∈ l, srv.lastActivity fd = b.now ∧ fd ∉ srv.clientFds) :=
    ⟨[], (List.append_nil _).symm, fun fd hfd => absurd hfd List.not_mem_nil⟩
  rcases haccepted : b.accepted with _ | ⟨fd, _ | _⟩
  · exact ⟨hsame.choose, hsame.choose_spec.1, hsame.choose_spec.2, fun _ _ => ⟨rfl, rfl⟩, rfl, rfl⟩
  · exact ⟨hsame.choose, hsame.choose_spec.1, hsame.choose_spec.2, fun _ _ => ⟨rfl, rfl⟩, rfl, rfl⟩
  · have hfresh : fd ∉ srv.clientFds := b.fresh fd true haccepted
    refine ⟨[fd], rfl, ?_, ?_, rfl, rfl⟩
    · intro fd' hfd'
      rw [List.mem_singleton.mp hfd']
      exact ⟨Function.update_self .., hfresh⟩
    · intro fd' hfd'
      have hne : fd' ≠ fd := fun heq => hfresh (heq ▸ hfd')
      exact ⟨Function.update_of_ne hne _ _, Function.update_of_ne hne _ _⟩

theorem mem_clientFds_of_ready {srv : Server σ} {ready : ℕ → Bool}
    (hfd : fd ∈ srv.readyFds ready) : fd ∈ srv.clientFds :=
  List.mem_of_mem_take (List.mem_filter.mp hfd).1

theorem nodup_readyFds {srv : Server σ} (hnodup : srv.clientFds.Nodup) (ready : ℕ → Bool) :
    (srv.readyFds ready).Nodup :=
  (hnodup.sublist (List.take_sublist _ _)).filter _

/-- The clients that are swept after the reading are those that were idle before. -/
theorem sweep_idleFds (srv : Server σ) (b : Batch srv) (htimeout : 0 < srv.idleTimeout)
    (hconfined : Confined b.now {fd | fd ∈ srv.readyFds b.ready}
      (srv.accept hooks b.now b.accepted).2 srv') :
    srv'.clientFds.filter (fun fd => decide ((srv'.clientState fd).isSome ∧
      srv'.idleTimeout < b.now - srv'.lastActivity fd)) = srv.idleFds b := by
  obtain ⟨l, hclients, hnew, hsame, -, hidle⟩ := accept_spec hooks srv b
  obtain ⟨p, hp, hkeep⟩ := hconfined.clientFds
  have hidle' : srv'.idleTimeout = srv.idleTimeout := hconfined.idleTimeout.trans hidle
  have hl : (l.filter p).filter (fun fd => decide ((srv'.clientState fd).isSome ∧
      srv'.idleTimeout < b.now - srv'.lastActivity fd)) = [] := by
    apply List.filter_eq_nil_iff.mpr
    intro fd hfd
    obtain ⟨hactive, hout⟩ := hnew fd (List.mem_filter.mp hfd).1
    have hready : fd ∉ {fd | fd ∈ srv.readyFds b.ready} :=
      fun hmem => hout (mem_clientFds_of_ready hmem)
    rw [hconfined.lastActivity fd hready, hactive, hidle']
    intro hlate
    have hlt := (of_decide_eq_true hlate).2
    omega
  rw [hp, hclients, List.filter_append, List.filter_append, hl, List.append_nil,
    List.filter_filter, Server.idleFds]
  apply List.filter_congr
  intro fd hfd
  obtain ⟨hstate, hactivity⟩ := hsame fd hfd
  by_cases hready : fd ∈ srv.readyFds b.ready
  · -- a client that was ready is active
    have hright : decide (fd ∉ srv.readyFds b.ready ∧ (srv.clientState fd).isSome ∧
        srv.idleTimeout < b.now - srv.lastActivity fd) = false :=
      decide_eq_false (fun hidle => hidle.1 hready)
    rw [hright]
    cases hpfd : p fd with
    | false => rw [Bool.and_false]
    | true =>
        have hmem : fd ∈ srv'.clientFds := by
          rw [hp, hclients]
          exact List.mem_filter.mpr ⟨List.mem_append_left _ hfd, hpfd⟩
        rw [Bool.and_true, hconfined.active fd hready hmem, hidle']
        apply decide_eq_false
        intro hlate
        omega
  · rw [hkeep fd hready, Bool.and_true, hconfined.clientState fd hready,
      hconfined.lastActivity fd hready, hstate, hactivity, hidle']
    exact decide_eq_decide.mpr ⟨fun hlate => ⟨hready, hlate⟩, fun hlate => hlate.2⟩

/-- **A call of `serve-once`** does what happens in it. -/
theorem does_serveOnce (c : Codec ν) (h : Handlers σ ν) (hooks : Hooks σ) (srv : Server σ)
    (hnodup : srv.clientFds.Nodup) (b : Batch srv) :
    Does c h hooks srv (srv.happenings b) (srv.serveOnce c h hooks b) := by
  obtain ⟨l, hclients, hnew, hsame, hsockets, hidle⟩ := accept_spec hooks srv b
  have hready := nodup_readyFds hnodup b.ready
  have haccept : Does c h hooks srv _ (srv.accept hooks b.now b.accepted) :=
    does_accept srv b.accepted
  obtain ⟨hdrain, hconfined⟩ := does_drainAll c h hooks b.now (srv.readyFds b.ready) hready
    (srv.accept hooks b.now b.accepted).2
  have hclientHappenings : (srv.readyFds b.ready).flatMap
      (srv.accept hooks b.now b.accepted).2.clientHappenings =
        (srv.readyFds b.ready).flatMap srv.clientHappenings := by
    apply List.flatMap_congr
    intro fd hfd
    unfold Server.clientHappenings
    rw [(hsame fd (mem_clientFds_of_ready hfd)).1, hsockets]
  rw [hclientHappenings] at hdrain
  have hboth := haccept.andThen
    (f := fun srv1 => srv1.drainAll c h hooks b.now (srv.readyFds b.ready)) (fun _ => hdrain)
  refine hboth.andThen (fun hok => ?_)
  obtain ⟨-, heq⟩ := Result.andThen_ok hok
  rw [heq] at hok ⊢
  have hconfined' := hconfined hok
  have htimeout : ((srv.accept hooks b.now b.accepted).2.drainAll c h hooks b.now
      (srv.readyFds b.ready)).2.idleTimeout = srv.idleTimeout :=
    hconfined'.idleTimeout.trans hidle
  rw [htimeout]
  split_ifs with hpos
  · rw [← sweep_idleFds srv b hpos hconfined']
    exact does_removeAll _ _
  · exact Does.nil _

end Lush.Wire
