import Lush.Wire.Serving

/-!
# One client among others

The calls of `serve-once` over the life of a server (`Server.Reachable`).  A call that meets no
error serves every client that is ready, and each of them gets what it would get if no other
client were ready, where the handlers treat the clients apart (`Independent`).
-/

namespace Lush.Wire

variable {σ ν : Type} {c : Codec ν} {h : Handlers σ ν} {hooks : Hooks σ} {now : ℤ}
  {srv : Server σ} {fd : ℕ}

/-! ## The states of a server -/

/-- The state of a new server. -/
def Server.new (handlers : σ) (idleTimeout : ℤ) : Server σ where
  handlers := handlers
  clientFds := []
  clientState _ := none
  lastActivity _ := 0
  idleTimeout := idleTimeout
  sockets _ := ⟨[], false⟩
  writable _ := true
  sent _ := []

/-- The states that a server can reach. -/
inductive Server.Reachable (c : Codec ν) (h : Handlers σ ν) (hooks : Hooks σ) : Server σ → Prop
  | new (handlers : σ) (idleTimeout : ℤ) : Reachable c h hooks (.new handlers idleTimeout)
  /-- Something arrives at the sockets, or their peers go. -/
  | arrive {srv : Server σ} (hsrv : Reachable c h hooks srv) (sockets : ℕ → Socket)
      (writable : ℕ → Bool) :
      Reachable c h hooks { srv with sockets := sockets, writable := writable }
  /-- `register-fd`. -/
  | register {srv : Server σ} (hsrv : Reachable c h hooks srv) (now : ℤ) (fd : ℕ)
      (hfresh : fd ∉ srv.clientFds) : Reachable c h hooks (srv.addClient hooks now fd).2
  /-- `serve-once`. -/
  | serve {srv : Server σ} (hsrv : Reachable c h hooks srv) (b : Batch srv) :
      Reachable c h hooks (srv.serveOnce c h hooks b).2

/-- The clients are different, and each reader waits for the rest of a frame. -/
structure Server.Sound (srv : Server σ) : Prop where
  nodup : srv.clientFds.Nodup
  holds : ∀ fd state, srv.clientState fd = some state → ∃ pending, state.Holds pending

namespace Server

theorem sound_new (handlers : σ) (idleTimeout : ℤ) : (new handlers idleTimeout).Sound where
  nodup := List.nodup_nil
  holds _ _ hstate := nomatch hstate

theorem Sound.addClient (hsrv : srv.Sound) (hfresh : fd ∉ srv.clientFds) :
    (srv.addClient hooks now fd).2.Sound := by
  constructor
  · show (srv.clientFds ++ [fd]).Nodup
    apply List.nodup_append.mpr
    refine ⟨hsrv.nodup, List.nodup_singleton fd, ?_⟩
    intro a ha b hb heq
    rw [heq, List.mem_singleton.mp hb] at ha
    exact hfresh ha
  · intro fd' state hstate
    change Function.update srv.clientState fd (some .initial) fd' = some state at hstate
    by_cases hfd : fd' = fd
    · rw [hfd, Function.update_self] at hstate
      exact ⟨[], Option.some.inj hstate ▸ ReadState.initial_holds⟩
    · rw [Function.update_of_ne hfd] at hstate
      exact hsrv.holds fd' state hstate

theorem Sound.removeClient (hsrv : srv.Sound) : (srv.removeClient hooks fd).2.Sound := by
  constructor
  · exact hsrv.nodup.filter _
  · intro fd' state hstate
    change Function.update srv.clientState fd none fd' = some state at hstate
    by_cases hfd : fd' = fd
    · rw [hfd, Function.update_self] at hstate
      cases hstate
    · rw [Function.update_of_ne hfd] at hstate
      exact hsrv.holds fd' state hstate

theorem Sound.handle (hsrv : srv.Sound) (m : Message) : (srv.handle c h fd m).2.Sound := by
  obtain ⟨handlers, sent, hreaders⟩ := handle_readers (c := c) (h := h) srv fd m
  rw [hreaders]
  exact ⟨hsrv.nodup, hsrv.holds⟩

theorem Sound.read (hsrv : srv.Sound) {state : ReadState} {k : Socket}
    (hholds : ∃ pending, state.Holds pending) :
    ((srv.touch fd now).read fd state k).Sound := by
  refine ⟨hsrv.nodup, ?_⟩
  intro fd' state' hstate
  change Function.update srv.clientState fd (some state) fd' = some state' at hstate
  by_cases hfd : fd' = fd
  · rw [hfd, Function.update_self] at hstate
    exact Option.some.inj hstate ▸ hholds
  · rw [Function.update_of_ne hfd] at hstate
    exact hsrv.holds fd' state' hstate

theorem Sound.andThen {r : Result σ} {f : Server σ → Result σ} (hr : r.2.Sound)
    (hf : ∀ srv1 : Server σ, srv1.Sound → (f srv1).2.Sound) : (r.andThen f).2.Sound := by
  obtain ⟨_ | u, srv1⟩ := r
  · exact hr
  · exact hf srv1 hr

theorem Sound.drain (hsrv : srv.Sound) (calls : ℕ) :
    (srv.drain c h hooks now calls fd).2.Sound := by
  induction calls generalizing srv with
  | zero => exact ⟨hsrv.nodup, hsrv.holds⟩
  | succ calls ih =>
      rw [Server.drain]
      cases hstate : srv.clientState fd with
      | none => exact hsrv.removeClient
      | some state =>
          obtain ⟨pending, hholds⟩ := hsrv.holds fd state hstate
          simp only
          rcases hread : tryReadClient state (srv.sockets fd) with e | ⟨_ | _ | m, s1, k1⟩
          · exact ⟨hsrv.nodup, hsrv.holds⟩
          · apply hsrv.read
            apply tryReadClient_holds hholds hread
            intro heq
            cases heq
          · -- the state of the reader is forgotten
            refine ⟨hsrv.nodup.filter _, ?_⟩
            intro fd' state' hstate'
            change Function.update (Function.update srv.clientState fd (some s1)) fd none fd' =
              some state' at hstate'
            by_cases hfd : fd' = fd
            · rw [hfd, Function.update_self] at hstate'
              cases hstate'
            · rw [Function.update_of_ne hfd, Function.update_of_ne hfd] at hstate'
              exact hsrv.holds fd' state' hstate'
          · have hread1 : ((srv.touch fd now).read fd s1 k1).Sound := by
              apply hsrv.read
              apply tryReadClient_holds hholds hread
              intro heq
              cases heq
            exact (hread1.handle m).andThen (fun srv1 hsrv1 => ih hsrv1)

theorem Sound.drainAll (fds : List ℕ) (hsrv : srv.Sound) :
    (srv.drainAll c h hooks now fds).2.Sound := by
  induction fds generalizing srv with
  | nil => exact hsrv
  | cons fd fds ih => exact (hsrv.drain _).andThen (fun srv1 hsrv1 => ih hsrv1)

theorem Sound.removeAll (fds : List ℕ) (hsrv : srv.Sound) :
    (srv.removeAll hooks fds).2.Sound := by
  induction fds generalizing srv with
  | nil => exact hsrv
  | cons fd fds ih => exact hsrv.removeClient.andThen (fun srv1 hsrv1 => ih hsrv1)

theorem Sound.accept (hsrv : srv.Sound) (b : Batch srv) :
    (srv.accept hooks b.now b.accepted).2.Sound := by
  rcases haccepted : b.accepted with _ | ⟨fd, _ | _⟩
  · exact hsrv
  · exact hsrv
  · exact hsrv.addClient (b.fresh fd true haccepted)

theorem Sound.serveOnce (hsrv : srv.Sound) (b : Batch srv) :
    (srv.serveOnce c h hooks b).2.Sound := by
  apply Sound.andThen
  · exact (hsrv.accept b).andThen (fun srv1 hsrv1 => hsrv1.drainAll _)
  · intro srv1 hsrv1
    split_ifs
    · exact hsrv1.removeAll _
    · exact hsrv1

/-- **Every state that a server reaches is sound.** -/
theorem Reachable.sound (hsrv : srv.Reachable c h hooks) : srv.Sound := by
  induction hsrv with
  | new handlers idleTimeout => exact sound_new handlers idleTimeout
  | arrive hsrv sockets writable ih => exact ⟨ih.nodup, ih.holds⟩
  | register hsrv now fd hfresh ih => exact ih.addClient hfresh
  | serve hsrv b ih => exact ih.serveOnce b

end Server

/-! ## What happens at a client whose bytes have arrived -/

/-- **What a client has sent is delivered as its stream has it**, if all that has arrived is
received at once. -/
theorem drained_one (calls : ℕ) (s : ReadState) (k : Socket) (pending : List UInt8)
    (hs : s.Holds pending) (hcalls : k.size < calls) (hone : k.pieces.length ≤ 1)
    (hopen : k.eof = false) (hfit : lengthsFit (pending ++ k.pieces.flatten) = true) :
    ∃ s' k', drained calls s k =
      .ok (deliveries false (pending ++ k.pieces.flatten), s', k') := by
  induction calls generalizing s k pending with
  | zero => omega
  | succ calls ih =>
      by_cases hnothing : k.pieces = []
      · obtain ⟨pieces, eof⟩ := k
        obtain rfl : pieces = [] := hnothing
        obtain rfl : eof = false := hopen
        refine ⟨s, ⟨[], false⟩, ?_⟩
        rw [drained, tryReadClient_nil hs, List.flatten_nil, List.append_nil,
          (hs.incomplete false).1]
        rfl
      · have hcall := tryReadClient_delivers hs (.inl hnothing)
        rw [drained]
        cases hread : tryReadClient s k with
        | error e =>
            rw [hread] at hcall
            cases hcall with
            | fault fit => rw [fit] at hfit; cases hfit
        | ok read =>
            obtain ⟨outcome, s1, k1⟩ := read
            rw [hread] at hcall
            cases hcall with
            | partial_ holds stream eof size all =>
                refine ⟨s1, k1, ?_⟩
                rw [← stream, all hone, List.flatten_nil, List.append_nil,
                  (holds.incomplete false).1]
                rfl
            | disconnect deliveries fit =>
                rw [hopen] at deliveries
                exact ⟨s1, k1, by rw [deliveries]; rfl⟩
            | message holds deliveries fit eof size length =>
                obtain ⟨s2, k2, hrest⟩ := ih s1 k1 [] holds (by omega) (length.trans hone)
                  (eof.trans hopen) (by rw [List.nil_append, ← fit, hfit])
                rw [hopen] at deliveries
                refine ⟨s2, k2, ?_⟩
                rw [deliveries]
                show (drained calls s1 k1 >>= fun r => Except.ok (_ :: r.1, r.2.1, r.2.2)) = _
                rw [hrest]
                rfl

/-- What happens at such a client. -/
theorem clientHappenings_one (srv : Server σ) {state : ReadState} {pending : List UInt8}
    (hstate : srv.clientState fd = some state) (hholds : state.Holds pending)
    (hone : (srv.sockets fd).pieces.length ≤ 1) (hopen : (srv.sockets fd).eof = false)
    (hfit : lengthsFit (pending ++ (srv.sockets fd).pieces.flatten) = true) :
    srv.clientHappenings fd =
      (deliveries false (pending ++ (srv.sockets fd).pieces.flatten)).map
        (Delivery.happening fd) := by
  obtain ⟨s', k', hdrained⟩ := drained_one ((srv.sockets fd).size + 1) state (srv.sockets fd)
    pending hholds (Nat.lt_succ_self _) hone hopen hfit
  unfold Server.clientHappenings
  simp only [hstate, hdrained]

/-! ## Handlers that treat the clients apart -/

/-- Two runs of something for a client that see the same leave the same to be seen. -/
def Agree {α ρ : Type} (view : σ → ρ) (x y : α × σ) : Prop := x.1 = y.1 ∧ view x.2 = view y.2

/-- What the handlers do for a client depends on the part of their state that is the client's
(`view`), and they leave the parts of the other clients alone. -/
structure Independent {ρ : Type} (h : Handlers σ ν) (hooks : Hooks σ) (view : ℕ → σ → ρ) :
    Prop where
  onSync : ∀ fd s s' expr encoding, view fd s = view fd s' →
    Agree (view fd) (h.onSync s fd expr encoding) (h.onSync s' fd expr encoding)
  onAsync : ∀ fd s s' expr encoding, view fd s = view fd s' →
    Agree (view fd) (h.onAsync s fd expr encoding) (h.onAsync s' fd expr encoding)
  onConnect : ∀ fd s s', view fd s = view fd s' →
    Agree (view fd) (hooks.onConnect s fd) (hooks.onConnect s' fd)
  onDisconnect : ∀ fd s s', view fd s = view fd s' →
    Agree (view fd) (hooks.onDisconnect s fd) (hooks.onDisconnect s' fd)
  syncOthers : ∀ fd fd' s expr encoding, fd' ≠ fd →
    view fd' (h.onSync s fd expr encoding).2 = view fd' s
  asyncOthers : ∀ fd fd' s expr encoding, fd' ≠ fd →
    view fd' (h.onAsync s fd expr encoding).2 = view fd' s
  connectOthers : ∀ fd fd' s, fd' ≠ fd → view fd' (hooks.onConnect s fd).2 = view fd' s
  disconnectOthers : ∀ fd fd' s, fd' ≠ fd → view fd' (hooks.onDisconnect s fd).2 = view fd' s

variable {ρ : Type} {view : ℕ → σ → ρ} {s s' : σ} {es : List Happening}

/-- The answer to a message depends on what its handler sees. -/
theorem Independent.answer (hindep : Independent h hooks view)
    (hview : view fd s = view fd s') (m : Message) :
    Agree (view fd) (handleMessage c h s fd m) (handleMessage c h s' fd m) := by
  unfold handleMessage
  cases c.decodeRequest m with
  | error e => exact ⟨rfl, hview⟩
  | ok decoded =>
      obtain ⟨encoding, payload⟩ := decoded
      simp only
      split_ifs
      · cases c.decodeExpr encoding payload with
        | error e => exact ⟨rfl, hview⟩
        | ok expr =>
            obtain ⟨hresult, hleft⟩ := hindep.onSync fd s s' expr encoding hview
            rcases hs : h.onSync s fd expr encoding with ⟨result, s1⟩
            rcases hs' : h.onSync s' fd expr encoding with ⟨result', s1'⟩
            rw [hs, hs'] at hresult hleft
            obtain rfl : result = result' := hresult
            simp only [hs, hs']
            cases result with
            | none => exact ⟨rfl, hleft⟩
            | some result =>
                simp only
                cases c.encodeResult (m.encoding = encCompressed) encoding result with
                | error e => exact ⟨rfl, hleft⟩
                | ok encoded => exact ⟨rfl, hleft⟩
      · cases c.decodeExpr encoding payload with
        | error e => exact ⟨rfl, hview⟩
        | ok expr =>
            obtain ⟨hresult, hleft⟩ := hindep.onAsync fd s s' expr encoding hview
            rcases hs : h.onAsync s fd expr encoding with ⟨result, s1⟩
            rcases hs' : h.onAsync s' fd expr encoding with ⟨result', s1'⟩
            rw [hs, hs'] at hresult hleft
            obtain rfl : result = result' := hresult
            simp only [hs, hs']
            cases result with
            | none => exact ⟨rfl, hleft⟩
            | some result => exact ⟨rfl, hleft⟩
      · exact ⟨rfl, hview⟩
      · exact ⟨rfl, hview⟩

/-- The handling of a message leaves the other clients alone. -/
theorem Independent.answer_others (hindep : Independent h hooks view) {fd' : ℕ}
    (hne : fd' ≠ fd) (s : σ) (m : Message) :
    view fd' (handleMessage c h s fd m).2 = view fd' s := by
  unfold handleMessage
  cases c.decodeRequest m with
  | error e => rfl
  | ok decoded =>
      obtain ⟨encoding, payload⟩ := decoded
      simp only
      split_ifs
      · cases c.decodeExpr encoding payload with
        | error e => rfl
        | ok expr =>
            have hothers := hindep.syncOthers fd fd' s expr encoding hne
            rcases hs : h.onSync s fd expr encoding with ⟨_ | result, s1⟩
            · rw [hs] at hothers
              simp only [hs]
              exact hothers
            · rw [hs] at hothers
              simp only [hs]
              cases c.encodeResult (m.encoding = encCompressed) encoding result with
              | error e => exact hothers
              | ok encoded => exact hothers
      · cases c.decodeExpr encoding payload with
        | error e => rfl
        | ok expr =>
            have hothers := hindep.asyncOthers fd fd' s expr encoding hne
            rcases hs : h.onAsync s fd expr encoding with ⟨_ | result, s1⟩
            · rw [hs] at hothers
              simp only [hs]
              exact hothers
            · rw [hs] at hothers
              simp only [hs]
              exact hothers
      · rfl
      · rfl

/-- What happens at another client. -/
theorem Independent.next_others (hindep : Independent h hooks view) (s : σ) {e : Happening}
    (he : e.fd ≠ fd) :
    view fd (e.next c h hooks s) = view fd s ∧ e.reply c h s fd = [] := by
  cases e with
  | connect fd' => exact ⟨hindep.connectOthers fd' fd s (Ne.symm he), rfl⟩
  | disconnect fd' => exact ⟨hindep.disconnectOthers fd' fd s (Ne.symm he), rfl⟩
  | message fd' m => exact ⟨hindep.answer_others (Ne.symm he) s m, if_neg he⟩
  | overrun fd' => exact ⟨rfl, rfl⟩

/-- **What happens at the client itself** depends on what the handlers see of it. -/
theorem Independent.next_same (hindep : Independent h hooks view) (writable : ℕ → Bool)
    {e : Happening} (hview : view e.fd s = view e.fd s') :
    view e.fd (e.next c h hooks s) = view e.fd (e.next c h hooks s') ∧
      e.reply c h s e.fd = e.reply c h s' e.fd ∧
      (e.Calm c h hooks writable s → e.Calm c h hooks writable s') := by
  cases e with
  | connect fd =>
      obtain ⟨hok, hleft⟩ := hindep.onConnect fd s s' hview
      exact ⟨hleft, rfl, fun hcalm => hok.symm.trans hcalm⟩
  | disconnect fd =>
      obtain ⟨hok, hleft⟩ := hindep.onDisconnect fd s s' hview
      exact ⟨hleft, rfl, fun hcalm => hok.symm.trans hcalm⟩
  | message fd m =>
      obtain ⟨hreply, hleft⟩ := hindep.answer (c := c) (show view fd s = view fd s' from hview) m
      refine ⟨hleft, ?_, ?_⟩
      · show (if fd = fd then _ else _) = (if fd = fd then _ else _)
        rw [hreply]
      · intro hcalm
        apply (harmless_iff c h (writable fd) s' fd m).mpr
        obtain ⟨reply, hok, hwritable⟩ := (harmless_iff c h (writable fd) s fd m).mp hcalm
        exact ⟨reply, hreply.symm.trans hok, hwritable⟩
  | overrun fd => exact ⟨hview, rfl, fun hcalm => hcalm.elim⟩

/-- **The others can be left out.** -/
theorem Independent.filter (hindep : Independent h hooks view) (writable : ℕ → Bool)
    (hview : view fd s = view fd s') (hcalm : Calm c h hooks writable s es) :
    Calm c h hooks writable s' (es.filter fun e => e.fd = fd) ∧
      replies c h hooks fd s es =
        replies c h hooks fd s' (es.filter fun e => e.fd = fd) := by
  induction es generalizing s s' with
  | nil => exact ⟨trivial, rfl⟩
  | cons e es ih =>
      by_cases he : e.fd = fd
      · subst he
        obtain ⟨hnext, hreply, hcalm'⟩ := hindep.next_same (c := c) writable hview
        obtain ⟨hrest, hreplies⟩ := ih hnext hcalm.2
        have hfilter : (e :: es).filter (fun e' => decide (e'.fd = e.fd)) =
            e :: es.filter (fun e' => decide (e'.fd = e.fd)) :=
          List.filter_cons_of_pos (decide_eq_true rfl)
        rw [hfilter]
        refine ⟨⟨hcalm' hcalm.1, hrest⟩, ?_⟩
        show e.reply c h s e.fd ++ _ = e.reply c h s' e.fd ++ _
        rw [hreply, hreplies]
      · obtain ⟨hnext, hreply⟩ := hindep.next_others (c := c) s he
        obtain ⟨hrest, hreplies⟩ := ih (hnext.trans hview) hcalm.2
        have hfilter : (e :: es).filter (fun e' => decide (e'.fd = fd)) =
            es.filter (fun e' => decide (e'.fd = fd)) :=
          List.filter_cons_of_neg (by simpa using he)
        rw [hfilter]
        refine ⟨hrest, ?_⟩
        show e.reply c h s fd ++ _ = _
        rw [hreply, List.nil_append, hreplies]

/-! ## A client alone -/

/-- Only one client is ready. -/
def Batch.only (b : Batch srv) (fd : ℕ) : Batch srv where
  accepted := none
  ready fd' := fd' = fd
  now := b.now
  fresh _ _ haccepted := nomatch haccepted

/-- What happens at a client is about the client. -/
theorem fd_of_mem_clientHappenings {e : Happening} (he : e ∈ srv.clientHappenings fd) :
    e.fd = fd := by
  unfold Server.clientHappenings at he
  cases hstate : srv.clientState fd with
  | none =>
      rw [hstate] at he
      rw [List.mem_singleton.mp he]
      rfl
  | some state =>
      cases hdrained : drained ((srv.sockets fd).size + 1) state (srv.sockets fd) with
      | error e' =>
          simp only [hstate, hdrained] at he
          rw [List.mem_singleton.mp he]
          rfl
      | ok r =>
          simp only [hstate, hdrained] at he
          obtain ⟨d, -, rfl⟩ := List.mem_map.mp he
          cases d with
          | disconnect => rfl
          | message m => rfl

/-- What happens at one of several clients. -/
theorem filter_clientHappenings (srv : Server σ) {fds : List ℕ} (hnodup : fds.Nodup)
    (hfd : fd ∈ fds) :
    (fds.flatMap srv.clientHappenings).filter (fun e => e.fd = fd) = srv.clientHappenings fd := by
  have hown : (srv.clientHappenings fd).filter (fun e => e.fd = fd) = srv.clientHappenings fd :=
    List.filter_eq_self.mpr (fun e he => decide_eq_true (fd_of_mem_clientHappenings he))
  have hother {fd' : ℕ} (hne : fd' ≠ fd) :
      (srv.clientHappenings fd').filter (fun e => e.fd = fd) = [] := by
    apply List.filter_eq_nil_iff.mpr
    intro e he heq
    exact hne ((fd_of_mem_clientHappenings he).symm.trans (of_decide_eq_true heq))
  induction fds with
  | nil => exact absurd hfd List.not_mem_nil
  | cons fd' fds ih =>
      obtain ⟨hnotin, hnodup⟩ := List.nodup_cons.mp hnodup
      rw [List.flatMap_cons, List.filter_append]
      by_cases heq : fd' = fd
      · subst heq
        have hrest : (fds.flatMap srv.clientHappenings).filter (fun e => e.fd = fd') = [] := by
          apply List.filter_eq_nil_iff.mpr
          intro e he heq
          obtain ⟨fd2, hfd2, he⟩ := List.mem_flatMap.mp he
          have hfd2' : fd2 = fd' :=
            (fd_of_mem_clientHappenings he).symm.trans (of_decide_eq_true heq)
          exact hnotin (hfd2' ▸ hfd2)
        rw [hown, hrest, List.append_nil]
      · have hmem : fd ∈ fds := (List.mem_cons.mp hfd).resolve_left (Ne.symm heq)
        rw [hother heq, List.nil_append, ih hnodup hmem]

theorem filter_happenings (hnodup : srv.clientFds.Nodup) (b : Batch srv)
    (hready : fd ∈ srv.readyFds b.ready) :
    (srv.happenings b).filter (fun e => e.fd = fd) = srv.clientHappenings fd := by
  have hclient : fd ∈ srv.clientFds := mem_clientFds_of_ready hready
  have hconnect :
      (Server.acceptHappenings b.accepted).filter (fun e => e.fd = fd) = [] := by
    rcases haccepted : b.accepted with _ | ⟨fd', _ | _⟩
    · rfl
    · rfl
    · have hne : fd' ≠ fd := fun heq => b.fresh fd' true haccepted (heq ▸ hclient)
      apply List.filter_eq_nil_iff.mpr
      intro e he heq
      rw [List.mem_singleton.mp he] at heq
      exact hne (of_decide_eq_true heq)
  have hidle : (if 0 < srv.idleTimeout then (srv.idleFds b).map Happening.disconnect
      else []).filter (fun e => e.fd = fd) = [] := by
    apply List.filter_eq_nil_iff.mpr
    intro e he heq
    split_ifs at he
    · obtain ⟨fd', hfd', rfl⟩ := List.mem_map.mp he
      obtain rfl : fd' = fd := of_decide_eq_true heq
      exact (of_decide_eq_true (List.mem_filter.mp hfd').2).1 hready
    · exact absurd he List.not_mem_nil
  rw [Server.happenings, List.filter_append, List.filter_append, hconnect, hidle,
    filter_clientHappenings srv (nodup_readyFds hnodup b.ready) hready, List.nil_append,
    List.append_nil]

theorem sent_removeAll (fds : List ℕ) (srv : Server σ) :
    (srv.removeAll hooks fds).2.sent = srv.sent := by
  induction fds generalizing srv with
  | nil => rfl
  | cons fd fds ih =>
      have hsent : (srv.removeClient hooks fd).2.sent = srv.sent := rfl
      rw [Server.removeAll]
      rcases hresult : srv.removeClient hooks fd with ⟨_ | u, srv1⟩
      · rw [hresult] at hsent
        exact hsent
      · rw [hresult] at hsent
        exact (ih srv1).trans hsent

/-- **What a client gets alone.** -/
theorem sent_only (hnodup : srv.clientFds.Nodup) (b : Batch srv)
    (hready : fd ∈ srv.readyFds b.ready)
    (hcalm : Calm c h hooks srv.writable srv.handlers (srv.clientHappenings fd)) :
    (srv.serveOnce c h hooks (b.only fd)).2.sent fd =
      srv.sent fd ++ replies c h hooks fd srv.handlers (srv.clientHappenings fd) := by
  have honly : srv.readyFds (b.only fd).ready = [fd] := by
    have hmem : fd ∈ srv.clientFds.take 256 := (List.mem_filter.mp hready).1
    have hone : (srv.clientFds.take 256).count fd = 1 :=
      List.count_eq_one_of_mem (hnodup.sublist (List.take_sublist _ _)) hmem
    show (srv.clientFds.take 256).filter (fun fd' => decide (fd' = fd)) = [fd]
    rw [List.filter_eq, hone]
    rfl
  obtain ⟨hdoes, -⟩ := does_drainAll c h hooks b.now [fd] (List.nodup_singleton fd) srv
  have hsingle : [fd].flatMap srv.clientHappenings = srv.clientHappenings fd := by
    rw [List.flatMap_cons, List.flatMap_nil, List.append_nil]
  rw [hsingle] at hdoes
  have hok := hdoes.ok_iff.mpr hcalm
  have hsent := hdoes.sent hok fd
  unfold Server.serveOnce
  rw [honly]
  show (((srv.drainAll c h hooks b.now [fd]).andThen _).2.sent fd) = _
  rcases hresult : srv.drainAll c h hooks b.now [fd] with ⟨e | u, srv1⟩
  · rw [hresult] at hok
    cases hok
  · rw [hresult] at hsent
    rw [← hsent]
    show (if 0 < srv1.idleTimeout then _ else _ : Result σ).2.sent fd = _
    split_ifs
    · exact congrFun (sent_removeAll _ srv1) fd
    · rfl

/-- **The batch is served**: the call returns, all that has happened was handled and answered,
and each client that was ready has got what it gets alone, where the handlers treat the clients
apart. -/
structure Served (c : Codec ν) (h : Handlers σ ν) (hooks : Hooks σ) (srv : Server σ)
    (b : Batch srv) : Prop where
  returns : (srv.serveOnce c h hooks b).1 = .ok ()
  handled : (srv.serveOnce c h hooks b).2.handlers =
    after c h hooks srv.handlers (srv.happenings b)
  answered : ∀ fd, (srv.serveOnce c h hooks b).2.sent fd =
    srv.sent fd ++ replies c h hooks fd srv.handlers (srv.happenings b)
  alone : ∀ {ρ : Type} (view : ℕ → σ → ρ), Independent h hooks view →
    ∀ fd ∈ srv.readyFds b.ready, (srv.serveOnce c h hooks b).2.sent fd =
      (srv.serveOnce c h hooks (b.only fd)).2.sent fd

theorem Served.calm {b : Batch srv} (hserved : Served c h hooks srv b)
    (hsrv : srv.Reachable c h hooks) (hes : srv.happenings b = es) :
    Calm c h hooks srv.writable srv.handlers es :=
  hes ▸ (does_serveOnce c h hooks srv hsrv.sound.nodup b).ok_iff.mp hserved.returns

/-- Callbacks that do nothing. -/
def quietHooks : Hooks Unit where
  onConnect _ _ := (true, ())
  onDisconnect _ _ := (true, ())

/-- The text "t". -/
def textT : CString := ⟨[116], by decide⟩

/-- The name "x" of a symbol without a value. -/
def textX : CString := ⟨[120], by decide⟩

/-- A server with one client, which has sent a request for the text `text`. -/
def oneClient (text : CString) : Server Unit :=
  { ((Server.new () 300).addClient quietHooks 0 4).2 with
    sockets := fun _ => ⟨[buildHeader msgSync encSexp 1 (BitVec.ofNat _ text.bytes.length) ++
      text.bytes], false⟩
    writable := fun _ => true }

/-- The client is ready. -/
def clientReady (text : CString) : Batch (oneClient text) where
  accepted := none
  ready _ := true
  now := 1
  fresh _ _ haccepted := nomatch haccepted

theorem oneClient_reachable (text : CString) :
    (oneClient text).Reachable truthCodec truthHandlers quietHooks :=
  .arrive (.register (.new () 300) 0 4 List.not_mem_nil) _ _

/-- What happens at the client. -/
theorem oneClient_happenings (text : CString) (hlength : text.bytes.length < 2 ^ 31) :
    (oneClient text).happenings (clientReady text) =
      [.message 4 ⟨msgSync, encSexp, 1, stringToBytes text⟩] := by
  let f : Frame := ⟨msgSync, encSexp, 1, text.bytes, hlength⟩
  have hflatten : ((oneClient text).sockets 4).pieces.flatten = f.bytes ++ [] := by
    show [f.bytes].flatten = f.bytes ++ []
    rw [List.flatten_cons, List.flatten_nil]
  obtain ⟨hdeliveries, hfit⟩ := deliveries_bytes false f []
  have hstate : (oneClient text).clientState 4 = some .initial := by
    show Function.update (fun _ : ℕ => none) 4 (some ReadState.initial) 4 = _
    exact Function.update_self ..
  have hone := clientHappenings_one (oneClient text) hstate ReadState.initial_holds
    (le_refl 1) rfl (by rw [List.nil_append, hflatten, hfit]; exact lengthsFit_short (by decide))
  rw [List.nil_append, hflatten, hdeliveries, deliveries_short (by decide)] at hone
  have hready : (oneClient text).readyFds (clientReady text).ready = [4] := rfl
  have hidle : (oneClient text).idleFds (clientReady text) = [] := rfl
  rw [Server.happenings, hready, hidle, List.flatMap_cons, hone]
  rfl

end Lush.Wire
