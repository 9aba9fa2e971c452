import Lush.Wire.Message

/-!
# The calls of a client

One client of `wire.lsh` and its server.  Their frames travel on a stream each way; a client
that has sent a request with `wire-call` or `wire-ping` waits and takes the next frame that
arrives as its answer, whatever the message id of the frame.

The state keeps a record of the requests of the calls, of what the server made of each of them,
in order, and of what the calls returned (`State.Aligned`).
-/

namespace Lush.Wire

/-- What a client waits for. -/
inductive Waiting
  /-- The response to the call with this number. -/
  | call (n : ℕ)
  | ping
deriving DecidableEq

/-- A client and its server. -/
structure State (σ ν : Type) where
  server : σ
  /-- The frames on their way to the server. -/
  toServer : List Message
  /-- The frames on their way to the client. -/
  toClient : List Message
  connected : Bool
  nextMsgId : ℕ
  waiting : Option Waiting
  /-- The requests of the calls that were sent, with their message ids. -/
  requests : List (ℕ × Expr ν)
  /-- The requests that the server has evaluated, with the message ids that they carried and
  their results; there is none if the handler signalled an error. -/
  evaluated : List (BitVec (8 * 4) × Expr ν × Option ν)
  /-- What the calls have returned, with their numbers. -/
  returned : List (ℕ × Expr ν)

/-- What can happen.  An operation of the client or an answer of the server that is not `sent`
fails when it is written. -/
inductive Act (σ ν : Type)
  | call (expr : Expr ν) (sent : Bool)
  | send (expr : Expr ν) (sent : Bool)
  | ping (sent : Bool)
  /-- The client takes the next frame, or finds the end of the stream. -/
  | receive
  /-- The server takes the next frame. -/
  | handle (sent : Bool)
  /-- The server sends to all its clients. -/
  | broadcast (expr : Expr ν)
  /-- What the server does otherwise. -/
  | other (server : σ)
  /-- The connection is closed by the server; some frames still arrive at the client. -/
  | close (kept : ℕ)
  /-- `wire-close`. -/
  | leave

namespace State

variable {σ ν : Type}

/-- The state of a new connection. -/
def initial (server : σ) : State σ ν where
  server := server
  toServer := []
  toClient := []
  connected := true
  nextMsgId := 1
  waiting := none
  requests := []
  evaluated := []
  returned := []

/-- The message id of the next request. -/
def msgId (s : State σ ν) : BitVec (8 * 4) := BitVec.ofNat _ s.nextMsgId

/-- A frame is on its way to the server; it is lost if the connection is closed. -/
def arrive (s : State σ ν) (m : Message) : State σ ν :=
  { s with toServer := if s.connected then s.toServer ++ [m] else s.toServer }

/-- `wire-call`, up to its wait. -/
def call (c : Codec ν) (s : State σ ν) (expr : Expr ν) (sent : Bool) : State σ ν :=
  match c.encodeRequest expr with
  | .error _ => { s with nextMsgId := s.nextMsgId + 1 }
  | .ok (encoding, payload) =>
      if sent then
        { s.arrive (sentMessage msgSync encoding s.msgId payload) with
          nextMsgId := s.nextMsgId + 1
          waiting := some (.call s.requests.length)
          requests := s.requests ++ [(s.nextMsgId, expr)] }
      else { s with nextMsgId := s.nextMsgId + 1 }

/-- `wire-send`. -/
def send (c : Codec ν) (s : State σ ν) (expr : Expr ν) (sent : Bool) : State σ ν :=
  match c.encodeRequest expr with
  | .error _ => { s with nextMsgId := s.nextMsgId + 1 }
  | .ok (encoding, payload) =>
      if sent then
        { s.arrive (sentMessage msgAsync encoding s.msgId payload) with
          nextMsgId := s.nextMsgId + 1 }
      else { s with nextMsgId := s.nextMsgId + 1 }

/-- `wire-ping`, up to its wait. -/
def ping (s : State σ ν) (sent : Bool) : State σ ν :=
  if sent then
    { s.arrive (sentMessage msgHeartbeat encSexp s.msgId []) with
      nextMsgId := s.nextMsgId + 1
      waiting := some .ping }
  else { s with nextMsgId := s.nextMsgId + 1 }

/-- What `wire-call` or `wire-ping` does with the frame that it has received. -/
def receive (c : Codec ν) (s : State σ ν) : Option (State σ ν) :=
  match s.waiting, s.toClient with
  | none, _ => none
  | some _, [] => if s.connected then none else some { s with waiting := none }
  | some w, m :: rest =>
      let s := { s with waiting := none, toClient := rest }
      match w, c.readResponse m with
      | .call n, .ok value => some { s with returned := s.returned ++ [(n, value)] }
      | _, _ => some s

/-- `_handle-message` for the next frame. -/
def handle (c : Codec ν) (h : Handlers σ ν) (fd : ℕ) (s : State σ ν) (sent : Bool) :
    Option (State σ ν) :=
  match s.toServer with
  | [] => none
  | m :: rest =>
      let (reply, server) := handleMessage c h s.server fd m
      let s := { s with
        server := server
        toServer := rest
        evaluated := s.evaluated ++ evaluation c h s.server fd m }
      match reply, sent with
      | .ok (some frame), true => some { s with toClient := s.toClient ++ [frame] }
      | _, _ => some s

/-- `broadcast`, for this client. -/
def broadcast (c : Codec ν) (s : State σ ν) (expr : Expr ν) : Option (State σ ν) :=
  match c.encodeRequest expr with
  | .error _ => none
  | .ok (encoding, payload) =>
      if s.connected then
        some { s with toClient := s.toClient ++ [sentMessage msgAsync encoding 0 payload] }
      else none

/-- What an action does, where it can happen: the client acts when it does not wait. -/
def step (c : Codec ν) (h : Handlers σ ν) (fd : ℕ) (s : State σ ν) : Act σ ν → Option (State σ ν)
  | .call expr sent => if s.waiting = none then some (s.call c expr sent) else none
  | .send expr sent => if s.waiting = none then some (s.send c expr sent) else none
  | .ping sent => if s.waiting = none then some (s.ping sent) else none
  | .receive => s.receive c
  | .handle sent => s.handle c h fd sent
  | .broadcast expr => s.broadcast c expr
  | .other server => some { s with server := server }
  | .close kept =>
      some { s with connected := false, toServer := [], toClient := s.toClient.take kept }
  | .leave => if s.waiting = none then some { s with connected := false, toClient := [] } else none

/-- The state after some actions. -/
def run (c : Codec ν) (h : Handlers σ ν) (fd : ℕ) (s : State σ ν) :
    List (Act σ ν) → Option (State σ ν)
  | [] => some s
  | a :: acts => (s.step c h fd a).bind fun s => s.run c h fd acts

/-- **The calls get their own answers**: a call that has returned a value has the result of its
request, with its message id; the requests have different message ids, and each call has
returned at most once. -/
structure Aligned (c : Codec ν) (s : State σ ν) : Prop where
  own : ∀ n value, (n, value) ∈ s.returned → ∃ id expr result,
    s.requests[n]? = some (id, expr) ∧
    s.evaluated[n]? = some (BitVec.ofNat _ id, expr, some result) ∧
    value = c.answer expr result
  ids : (s.requests.map Prod.fst).Pairwise (· < ·)
  once : (s.returned.map Prod.fst).Pairwise (· < ·)

/-! ## What is on the streams -/

variable {c : Codec ν} {h : Handlers σ ν} {fd : ℕ} {s s' : State σ ν}

/-- Frames that nobody answers. -/
def Silent (ms : List Message) : Prop := ∀ m ∈ ms, m.msgType = msgAsync

/-- The number of calls that may have returned. -/
def settled (s : State σ ν) : ℕ :=
  match s.waiting with
  | some (.call n) => n
  | _ => s.requests.length

/-- What the client waits for is on one of the streams, or lost. -/
inductive Phase (c : Codec ν) (s : State σ ν) : Prop
  /-- Nothing is to be answered. -/
  | quiet (toClient : s.toClient = []) (silent : Silent s.toServer)
      (evaluated : s.connected = true → s.evaluated.length = s.requests.length)
  /-- The request of a call is on its way. -/
  | asked (n id : ℕ) (expr : Expr ν) (encoding : UInt8) (payload : List UInt8)
      (before : List Message) (connected : s.connected = true)
      (waiting : s.waiting = some (.call n)) (request : s.requests[n]? = some (id, expr)) (evaluated : s.evaluated.length = n)
      (toClient : s.toClient = [])
      (encode : c.encodeRequest expr = .ok (encoding, payload)) (silent : Silent before)
      (toServer : s.toServer =
        before ++ [sentMessage msgSync encoding (BitVec.ofNat _ id) payload])
  /-- The response to a call is on its way. -/
  | answered (n id : ℕ) (expr : Expr ν) (result : ν) (frame : Message)
      (waiting : s.waiting = some (.call n)) (request : s.requests[n]? = some (id, expr))
      (evaluated : s.evaluated[n]? = some (BitVec.ofNat _ id, expr, some result))
      (length : s.evaluated.length = s.requests.length)
      (toClient : s.toClient = [frame])
      (response : c.readResponse frame = .ok (c.answer expr result)) (silent : Silent s.toServer)
  /-- A ping is on its way. -/
  | pinged (before : List Message) (connected : s.connected = true)
      (waiting : s.waiting = some .ping)
      (evaluated : s.evaluated.length = s.requests.length) (toClient : s.toClient = [])
      (silent : Silent before) (toServer : ∃ m : Message, m.msgType = msgHeartbeat ∧
        s.toServer = before ++ [m])
  /-- The answer to a ping is on its way. -/
  | ponged (frame : Message) (waiting : s.waiting = some .ping)
      (evaluated : s.evaluated.length = s.requests.length) (toClient : s.toClient = [frame])
      (silent : Silent s.toServer)

/-- What holds of a client that gets no broadcast. -/
structure Inv (c : Codec ν) (s : State σ ν) : Prop where
  aligned : s.Aligned c
  fresh : ∀ r ∈ s.requests, r.1 < s.nextMsgId
  waiting : ∀ n, s.waiting = some (.call n) → n + 1 = s.requests.length
  returned : ∀ r ∈ s.returned, r.1 < s.settled
  evaluated : s.evaluated.length ≤ s.requests.length
  phase : s.Phase c

theorem inv_initial (c : Codec ν) (server : σ) : (initial server : State σ ν).Inv c where
  aligned := {
    own := fun _ _ hmem => absurd hmem List.not_mem_nil
    ids := List.Pairwise.nil
    once := List.Pairwise.nil }
  fresh := fun _ hr => absurd hr List.not_mem_nil
  waiting := fun _ hn => nomatch hn
  returned := fun _ hr => absurd hr List.not_mem_nil
  evaluated := le_refl 0
  phase := .quiet rfl (fun _ hm => absurd hm List.not_mem_nil) (fun _ => rfl)

/-! ## The steps -/

/-- The state of the server and the next message id are not on the streams. -/
theorem Phase.with_server (hphase : s.Phase c) (server : σ) (nextMsgId : ℕ) :
    ({ s with server := server, nextMsgId := nextMsgId } : State σ ν).Phase c := by
  cases hphase with
  | quiet toClient silent evaluated => exact .quiet toClient silent evaluated
  | asked n id expr encoding payload before connected waiting request evaluated toClient encode
      silent toServer =>
      exact .asked n id expr encoding payload before connected waiting request evaluated toClient
        encode silent toServer
  | answered n id expr result frame waiting request evaluated length toClient response silent =>
      exact .answered n id expr result frame waiting request evaluated length toClient response
        silent
  | pinged before connected waiting evaluated toClient silent toServer =>
      exact .pinged before connected waiting evaluated toClient silent toServer
  | ponged frame waiting evaluated toClient silent =>
      exact .ponged frame waiting evaluated toClient silent

theorem Inv.with_server (hinv : s.Inv c) (server : σ) {nextMsgId : ℕ}
    (hle : s.nextMsgId ≤ nextMsgId) :
    ({ s with server := server, nextMsgId := nextMsgId } : State σ ν).Inv c where
  aligned := ⟨hinv.aligned.own, hinv.aligned.ids, hinv.aligned.once⟩
  fresh := fun r hr => (hinv.fresh r hr).trans_le hle
  waiting := hinv.waiting
  returned := hinv.returned
  evaluated := hinv.evaluated
  phase := hinv.phase.with_server server nextMsgId

/-- A client that does not wait has nothing to be answered. -/
theorem Inv.idle (hinv : s.Inv c) (hidle : s.waiting = none) :
    s.toClient = [] ∧ Silent s.toServer ∧
      (s.connected = true → s.evaluated.length = s.requests.length) ∧
      s.settled = s.requests.length := by
  have hsettled : s.settled = s.requests.length := by
    unfold settled
    rw [hidle]
  cases hinv.phase with
  | quiet toClient silent evaluated => exact ⟨toClient, silent, evaluated, hsettled⟩
  | asked n id expr encoding payload before connected waiting => rw [hidle] at waiting; cases waiting
  | answered n id expr result frame waiting => rw [hidle] at waiting; cases waiting
  | pinged before connected waiting => rw [hidle] at waiting; cases waiting
  | ponged frame waiting => rw [hidle] at waiting; cases waiting

/-- **A call is made.** -/
theorem inv_call (hinv : s.Inv c) (hidle : s.waiting = none) (expr : Expr ν) (sent : Bool) :
    (s.call c expr sent).Inv c := by
  obtain ⟨htoClient, hsilent, hevaluated, hsettled⟩ := hinv.idle hidle
  unfold call
  cases hencode : c.encodeRequest expr with
  | error e => exact hinv.with_server s.server (Nat.le_succ _)
  | ok encoded =>
      obtain ⟨encoding, payload⟩ := encoded
      cases sent with
      | false => exact hinv.with_server s.server (Nat.le_succ _)
      | true =>
          have hfresh (r : ℕ × Expr ν) (hr : r ∈ s.requests ++ [(s.nextMsgId, expr)]) :
              r.1 < s.nextMsgId + 1 := by
            rcases List.mem_append.mp hr with hr | hr
            · exact (hinv.fresh r hr).trans (Nat.lt_succ_self _)
            · rw [List.mem_singleton.mp hr]
              exact Nat.lt_succ_self _
          have hreturned (r : ℕ × Expr ν) (hr : r ∈ s.returned) : r.1 < s.requests.length := by
            rw [← hsettled]
            exact hinv.returned r hr
          have hlength : (s.requests ++ [(s.nextMsgId, expr)]).length = s.requests.length + 1 :=
            List.length_append
          refine ⟨⟨?_, ?_, hinv.aligned.once⟩, hfresh, ?_, hreturned, ?_, ?_⟩
          · -- the earlier requests keep their places
            intro n value hmem
            obtain ⟨id, expr', result, hrequest, hresult, hvalue⟩ :=
              hinv.aligned.own n value hmem
            refine ⟨id, expr', result, ?_, hresult, hvalue⟩
            show (s.requests ++ [(s.nextMsgId, expr)])[n]? = _
            rw [List.getElem?_append_left (hreturned _ hmem), hrequest]
          · show ((s.requests ++ [(s.nextMsgId, expr)]).map Prod.fst).Pairwise (· < ·)
            rw [List.map_append, List.pairwise_append]
            refine ⟨hinv.aligned.ids, List.pairwise_singleton _ _, ?_⟩
            intro id hid id' hid'
            obtain ⟨r, hr, rfl⟩ := List.mem_map.mp hid
            rw [List.mem_singleton.mp hid']
            exact hinv.fresh r hr
          · intro n hn
            obtain rfl := Waiting.call.inj (Option.some.inj hn)
            exact hlength.symm
          · show s.evaluated.length ≤ (s.requests ++ [(s.nextMsgId, expr)]).length
            rw [hlength]
            exact hinv.evaluated.trans (Nat.le_succ _)
          · cases hconnected : s.connected with
            | false =>
                -- the request is lost
                refine .quiet htoClient ?_ (fun h => absurd (hconnected.symm.trans h) (by decide))
                show Silent (if s.connected then _ else s.toServer)
                rw [hconnected]
                exact hsilent
            | true =>
                refine .asked s.requests.length s.nextMsgId expr encoding payload s.toServer
                  hconnected rfl ?_ (hevaluated hconnected) htoClient hencode hsilent ?_
                · show (s.requests ++ [(s.nextMsgId, expr)])[s.requests.length]? = _
                  rw [List.getElem?_append_right (le_refl _), Nat.sub_self]
                  rfl
                · show (if s.connected then _ else s.toServer) = _
                  rw [hconnected]
                  rfl

/-- A request that is not to be answered is sent. -/
theorem inv_send (hinv : s.Inv c) (hidle : s.waiting = none) (expr : Expr ν) (sent : Bool) :
    (s.send c expr sent).Inv c := by
  obtain ⟨htoClient, hsilent, hevaluated, hsettled⟩ := hinv.idle hidle
  unfold send
  cases hencode : c.encodeRequest expr with
  | error e => exact hinv.with_server s.server (Nat.le_succ _)
  | ok encoded =>
      obtain ⟨encoding, payload⟩ := encoded
      cases sent with
      | false => exact hinv.with_server s.server (Nat.le_succ _)
      | true =>
          refine ⟨⟨hinv.aligned.own, hinv.aligned.ids, hinv.aligned.once⟩, ?_, hinv.waiting,
            hinv.returned, hinv.evaluated, .quiet htoClient ?_ hevaluated⟩
          · exact fun r hr => (hinv.fresh r hr).trans (Nat.lt_succ_self _)
          · show Silent (if s.connected then _ else s.toServer)
            split_ifs
            · intro m hm
              rcases List.mem_append.mp hm with hm | hm
              · exact hsilent m hm
              · rw [List.mem_singleton.mp hm]
                rfl
            · exact hsilent

/-- A ping is sent. -/
theorem inv_ping (hinv : s.Inv c) (hidle : s.waiting = none) (sent : Bool) :
    (s.ping sent).Inv c := by
  obtain ⟨htoClient, hsilent, hevaluated, hsettled⟩ := hinv.idle hidle
  unfold ping
  cases sent with
  | false => exact hinv.with_server s.server (Nat.le_succ _)
  | true =>
      refine ⟨⟨hinv.aligned.own, hinv.aligned.ids, hinv.aligned.once⟩, ?_,
        fun n hn => (nomatch hn), ?_, hinv.evaluated, ?_⟩
      · exact fun r hr => (hinv.fresh r hr).trans (Nat.lt_succ_self _)
      · intro r hr
        have hlt := hinv.returned r hr
        rw [hsettled] at hlt
        exact hlt
      · cases hconnected : s.connected with
        | false =>
            refine .quiet htoClient ?_ (fun h => absurd (hconnected.symm.trans h) (by decide))
            show Silent (if s.connected then _ else s.toServer)
            rw [hconnected]
            exact hsilent
        | true =>
            refine .pinged s.toServer hconnected rfl (hevaluated hconnected) htoClient hsilent
              ⟨sentMessage msgHeartbeat encSexp s.msgId [], rfl, ?_⟩
            show (if s.connected then _ else s.toServer) = _
            rw [hconnected]
            rfl

/-- What is received by a client that does not keep it. -/
theorem Inv.drop (hinv : s.Inv c) (hsettled : s.settled ≤ s.requests.length)
    (hsilent : Silent s.toServer)
    (hevaluated : s.connected = true → s.evaluated.length = s.requests.length) :
    ({ s with waiting := none, toClient := [] } : State σ ν).Inv c where
  aligned := ⟨hinv.aligned.own, hinv.aligned.ids, hinv.aligned.once⟩
  fresh := hinv.fresh
  waiting := fun _ hn => nomatch hn
  returned := fun r hr => (hinv.returned r hr).trans_le hsettled
  evaluated := hinv.evaluated
  phase := .quiet rfl hsilent hevaluated

theorem Inv.settled_le (hinv : s.Inv c) : s.settled ≤ s.requests.length := by
  unfold settled
  split
  · rename_i n hwaiting
    have := hinv.waiting n hwaiting
    omega
  · exact le_refl _

/-- **The client takes its answer.** -/
theorem inv_receive (hinv : s.Inv c) (hstep : s.receive c = some s') : s'.Inv c := by
  have hle := hinv.settled_le
  unfold receive at hstep
  cases hwaiting : s.waiting with
  | none =>
      rw [hwaiting] at hstep
      cases hstep
  | some w =>
      rw [hwaiting] at hstep
      cases hinv.phase with
      | quiet toClient silent evaluated =>
          rw [toClient] at hstep
          cases hconnected : s.connected with
          | true =>
              rw [hconnected] at hstep
              cases hstep
          | false =>
              -- the end of the stream
              rw [if_neg (by rw [hconnected]; decide)] at hstep
              obtain rfl := Option.some.inj hstep
              exact hinv.drop hle silent evaluated
      | asked n id expr encoding payload before connected waiting request evaluated toClient =>
          rw [toClient, connected] at hstep
          cases hstep
      | answered n id expr result frame waiting request evaluated length toClient response silent =>
          obtain rfl := Option.some.inj (hwaiting.symm.trans waiting)
          rw [toClient] at hstep
          simp only [response] at hstep
          obtain rfl := Option.some.inj hstep
          have hn : n + 1 = s.requests.length := hinv.waiting n waiting
          have hsettled : s.settled = n := by
            unfold settled
            rw [waiting]
          have hreturned (r : ℕ × Expr ν) (hr : r ∈ s.returned) : r.1 < n := by
            rw [← hsettled]
            exact hinv.returned r hr
          refine ⟨⟨?_, hinv.aligned.ids, ?_⟩, hinv.fresh, fun n hn => (nomatch hn), ?_,
            hinv.evaluated, .quiet rfl silent (fun _ => length)⟩
          · intro k value hmem
            rcases List.mem_append.mp hmem with hmem | hmem
            · exact hinv.aligned.own k value hmem
            · obtain ⟨rfl, rfl⟩ := Prod.mk.inj (List.mem_singleton.mp hmem)
              exact ⟨id, expr, result, request, evaluated, rfl⟩
          · show ((s.returned ++ [(n, c.answer expr result)]).map Prod.fst).Pairwise (· < ·)
            rw [List.map_append, List.pairwise_append]
            refine ⟨hinv.aligned.once, List.pairwise_singleton _ _, ?_⟩
            intro k hk k' hk'
            obtain ⟨r, hr, rfl⟩ := List.mem_map.mp hk
            rw [List.mem_singleton.mp hk']
            exact hreturned r hr
          · intro r hr
            show r.1 < s.requests.length
            rcases List.mem_append.mp hr with hr | hr
            · have hlt := hreturned r hr
              omega
            · rw [List.mem_singleton.mp hr]
              show n < s.requests.length
              omega
      | pinged before connected waiting evaluated toClient =>
          rw [toClient, connected] at hstep
          cases hstep
      | ponged frame waiting evaluated toClient silent =>
          obtain rfl := Option.some.inj (hwaiting.symm.trans waiting)
          rw [toClient] at hstep
          obtain rfl := Option.some.inj hstep
          exact hinv.drop hle silent (fun _ => evaluated)

/-- The state after a step of the server. -/
def served (s : State σ ν) (server : σ) (toServer toClient : List Message)
    (evaluated : List (BitVec (8 * 4) × Expr ν × Option ν)) : State σ ν :=
  { s with
    server := server
    toServer := toServer
    toClient := toClient
    evaluated := s.evaluated ++ evaluated }

/-- What a step of the server is. -/
theorem handle_cases {sent : Bool} (hstep : s.handle c h fd sent = some s') :
    ∃ m rest reply, s.toServer = m :: rest ∧
      (reply = [] ∨ ∃ frame, (handleMessage c h s.server fd m).1 = .ok (some frame) ∧
        reply = [frame]) ∧
      s' = s.served (handleMessage c h s.server fd m).2 rest (s.toClient ++ reply)
        (evaluation c h s.server fd m) := by
  unfold handle at hstep
  cases htoServer : s.toServer with
  | nil =>
      rw [htoServer] at hstep
      cases hstep
  | cons m rest =>
      rw [htoServer] at hstep
      simp only at hstep
      rcases hreply : (handleMessage c h s.server fd m).1 with e | _ | frame
      · rw [hreply] at hstep
        exact ⟨m, rest, [], rfl, .inl rfl, by simpa [served] using hstep.symm⟩
      · rw [hreply] at hstep
        exact ⟨m, rest, [], rfl, .inl rfl, by simpa [served] using hstep.symm⟩
      · rw [hreply] at hstep
        cases sent with
        | false => exact ⟨m, rest, [], rfl, .inl rfl, by simpa [served] using hstep.symm⟩
        | true =>
            exact ⟨m, rest, [frame], rfl, .inr ⟨frame, hreply, rfl⟩, (Option.some.inj hstep).symm⟩

theorem Silent.tail {m : Message} {rest : List Message} (h : Silent (m :: rest)) : Silent rest :=
  fun m' hm' => h m' (List.mem_cons_of_mem _ hm')

/-- What the server evaluates is kept, and what it sends is the answer. -/
theorem Inv.step_server (hinv : s.Inv c) (server : σ) (toServer toClient : List Message)
    (evaluated : List (BitVec (8 * 4) × Expr ν × Option ν))
    (hlength : (s.evaluated ++ evaluated).length ≤ s.requests.length)
    (hphase : (s.served server toServer toClient evaluated).Phase c) :
    (s.served server toServer toClient evaluated).Inv c where
  aligned := {
    own := by
      intro n value hmem
      obtain ⟨id, expr, result, hrequest, hresult, hvalue⟩ := hinv.aligned.own n value hmem
      refine ⟨id, expr, result, hrequest, ?_, hvalue⟩
      obtain ⟨hlt, -⟩ := List.getElem?_eq_some_iff.mp hresult
      show (s.evaluated ++ evaluated)[n]? = _
      rw [List.getElem?_append_left hlt, hresult]
    ids := hinv.aligned.ids
    once := hinv.aligned.once }
  fresh := hinv.fresh
  waiting := hinv.waiting
  returned := hinv.returned
  evaluated := hlength
  phase := hphase

/-- **The server takes a frame.** -/
theorem inv_handle (hc : c.Faithful) (hinv : s.Inv c) {sent : Bool}
    (hstep : s.handle c h fd sent = some s') : s'.Inv c := by
  obtain ⟨m, rest, reply, htoServer, hreply, rfl⟩ := handle_cases hstep
  -- a frame that nobody answers
  have hasync (hm : m.msgType = msgAsync) :
      reply = [] ∧ evaluation c h s.server fd m = [] := by
    obtain ⟨hnone, heval⟩ := handleMessage_async c h s.server fd hm
    refine ⟨?_, heval⟩
    rcases hreply with rfl | ⟨frame, hframe, -⟩
    · rfl
    · exact absurd hframe (hnone frame)
  have hlength : (s.evaluated ++ []).length ≤ s.requests.length := by
    rw [List.append_nil]
    exact hinv.evaluated
  cases hinv.phase with
  | quiet toClient silent evaluated =>
      rw [htoServer] at silent
      obtain ⟨rfl, heval⟩ := hasync (silent m List.mem_cons_self)
      rw [heval]
      refine hinv.step_server _ rest _ [] hlength (.quiet ?_ silent.tail ?_)
      · show s.toClient ++ [] = []
        rw [toClient]
        rfl
      · intro hconnected
        show (s.evaluated ++ []).length = s.requests.length
        rw [List.append_nil]
        exact evaluated hconnected
  | asked n id expr encoding payload before connected waiting request evaluated toClient encode
      silent toServer =>
      have hn : n + 1 = s.requests.length := hinv.waiting n waiting
      cases before with
      | cons m' before =>
          obtain ⟨rfl, rfl⟩ := List.cons.inj (htoServer.symm.trans toServer)
          obtain ⟨rfl, heval⟩ := hasync (silent m List.mem_cons_self)
          rw [heval]
          refine hinv.step_server _ _ _ [] hlength ?_
          refine .asked n id expr encoding payload before connected waiting request ?_ ?_ encode
            silent.tail rfl
          · show (s.evaluated ++ []).length = n
            rw [List.append_nil, evaluated]
          · show s.toClient ++ [] = []
            rw [toClient]
            rfl
      | nil =>
          -- the request itself
          obtain ⟨rfl, rfl⟩ := List.cons.inj (htoServer.symm.trans toServer)
          obtain ⟨heval, hanswer⟩ :=
            handleMessage_sync hc h s.server fd encode (BitVec.ofNat (8 * 4) id)
          have hplace : (s.evaluated ++ [((BitVec.ofNat (8 * 4) id), expr,
              (h.onSync s.server fd expr encoding).1)])[n]? =
                some (BitVec.ofNat (8 * 4) id, expr, (h.onSync s.server fd expr encoding).1) := by
            rw [← evaluated, List.getElem?_append_right (le_refl _), Nat.sub_self]
            rfl
          have hlength' : (s.evaluated ++ [((BitVec.ofNat (8 * 4) id), expr,
              (h.onSync s.server fd expr encoding).1)]).length = s.requests.length := by
            rw [List.length_append, evaluated, ← hn]
            rfl
          have hsilent : Silent [] := fun _ hm => absurd hm List.not_mem_nil
          rw [heval]
          refine hinv.step_server _ _ _ _ hlength'.le ?_
          rcases hreply with rfl | ⟨frame, hframe, rfl⟩
          · refine .quiet ?_ hsilent (fun _ => hlength')
            show s.toClient ++ [] = []
            rw [toClient]
            rfl
          · obtain ⟨result, hresult, hresponse⟩ := hanswer frame hframe
            refine .answered n id expr result frame waiting request ?_ hlength' ?_ hresponse hsilent
            · show (s.evaluated ++ _)[n]? = _
              rw [hplace, hresult]
            · show s.toClient ++ [frame] = [frame]
              rw [toClient]
              rfl
  | answered n id expr result frame waiting request evaluated length toClient response silent =>
      rw [htoServer] at silent
      obtain ⟨rfl, heval⟩ := hasync (silent m List.mem_cons_self)
      rw [heval]
      refine hinv.step_server _ rest _ [] hlength ?_
      refine .answered n id expr result frame waiting request ?_ ?_ ?_ response silent.tail
      · show (s.evaluated ++ [])[n]? = _
        rw [List.append_nil, evaluated]
      · show (s.evaluated ++ []).length = s.requests.length
        rw [List.append_nil, length]
      · show s.toClient ++ [] = [frame]
        rw [toClient]
        rfl
  | pinged before connected waiting evaluated toClient silent toServer =>
      obtain ⟨ping, hping, htoServer'⟩ := toServer
      cases before with
      | cons m' before =>
          obtain ⟨rfl, rfl⟩ := List.cons.inj (htoServer.symm.trans htoServer')
          obtain ⟨rfl, heval⟩ := hasync (silent m List.mem_cons_self)
          rw [heval]
          refine hinv.step_server _ _ _ [] hlength ?_
          refine .pinged before connected waiting ?_ ?_ silent.tail ⟨ping, hping, rfl⟩
          · show (s.evaluated ++ []).length = s.requests.length
            rw [List.append_nil, evaluated]
          · show s.toClient ++ [] = []
            rw [toClient]
            rfl
      | nil =>
          obtain ⟨rfl, rfl⟩ := List.cons.inj (htoServer.symm.trans htoServer')
          have heval := evaluation_heartbeat c h s.server fd hping
          have hsilent : Silent [] := fun _ hm => absurd hm List.not_mem_nil
          have hlength' : (s.evaluated ++ []).length = s.requests.length := by
            rw [List.append_nil, evaluated]
          rw [heval]
          refine hinv.step_server _ _ _ [] hlength ?_
          rcases hreply with rfl | ⟨frame, hframe, rfl⟩
          · refine .quiet ?_ hsilent (fun _ => hlength')
            show s.toClient ++ [] = []
            rw [toClient]
            rfl
          · refine .ponged frame waiting hlength' ?_ hsilent
            show s.toClient ++ [frame] = [frame]
            rw [toClient]
            rfl
  | ponged frame waiting evaluated toClient silent =>
      rw [htoServer] at silent
      obtain ⟨rfl, heval⟩ := hasync (silent m List.mem_cons_self)
      rw [heval]
      refine hinv.step_server _ rest _ [] hlength (.ponged frame waiting ?_ ?_ silent.tail)
      · show (s.evaluated ++ []).length = s.requests.length
        rw [List.append_nil, evaluated]
      · show s.toClient ++ [] = [frame]
        rw [toClient]
        rfl

/-- The server closes the connection. -/
theorem inv_close (hinv : s.Inv c) (kept : ℕ) :
    ({ s with
      connected := false
      toServer := []
      toClient := s.toClient.take kept } : State σ ν).Inv c := by
  have hsilent : Silent [] := fun _ hm => absurd hm List.not_mem_nil
  have hquiet (htake : s.toClient.take kept = []) :
      ({ s with
        connected := false
        toServer := []
        toClient := s.toClient.take kept } : State σ ν).Phase c :=
    .quiet htake hsilent (fun h => (nomatch h))
  have htake (frame : Message) (hframe : s.toClient = [frame]) :
      s.toClient.take kept = [] ∨ s.toClient.take kept = [frame] := by
    rw [hframe]
    cases kept with
    | zero => exact .inl rfl
    | succ kept => exact .inr (by rw [List.take_succ_cons, List.take_nil])
  refine ⟨⟨hinv.aligned.own, hinv.aligned.ids, hinv.aligned.once⟩, hinv.fresh, hinv.waiting,
    hinv.returned, hinv.evaluated, ?_⟩
  cases hinv.phase with
  | quiet toClient => exact hquiet (by rw [toClient, List.take_nil])
  | asked n id expr encoding payload before connected waiting request evaluated toClient =>
      exact hquiet (by rw [toClient, List.take_nil])
  | answered n id expr result frame waiting request evaluated length toClient response silent =>
      rcases htake frame toClient with hnil | hone
      · exact hquiet hnil
      · exact .answered n id expr result frame waiting request evaluated length hone response
          hsilent
  | pinged before connected waiting evaluated toClient =>
      exact hquiet (by rw [toClient, List.take_nil])
  | ponged frame waiting evaluated toClient silent =>
      rcases htake frame toClient with hnil | hone
      · exact hquiet hnil
      · exact .ponged frame waiting evaluated hone hsilent

/-- The client closes the connection. -/
theorem inv_leave (hinv : s.Inv c) (hidle : s.waiting = none) :
    ({ s with connected := false, toClient := [] } : State σ ν).Inv c := by
  obtain ⟨-, hsilent, -, -⟩ := hinv.idle hidle
  exact ⟨⟨hinv.aligned.own, hinv.aligned.ids, hinv.aligned.once⟩, hinv.fresh, hinv.waiting,
    hinv.returned, hinv.evaluated, .quiet rfl hsilent (fun h => (nomatch h))⟩

/-- **Every step but a broadcast** keeps the invariant. -/
theorem inv_step (hc : c.Faithful) (hinv : s.Inv c) {a : Act σ ν}
    (hquiet : ∀ expr, a ≠ .broadcast expr) (hstep : s.step c h fd a = some s') : s'.Inv c := by
  cases a with
  | call expr sent =>
      obtain ⟨hidle, hs'⟩ := Option.ite_none_right_eq_some.mp hstep
      exact Option.some.inj hs' ▸ inv_call hinv hidle expr sent
  | send expr sent =>
      obtain ⟨hidle, hs'⟩ := Option.ite_none_right_eq_some.mp hstep
      exact Option.some.inj hs' ▸ inv_send hinv hidle expr sent
  | ping sent =>
      obtain ⟨hidle, hs'⟩ := Option.ite_none_right_eq_some.mp hstep
      exact Option.some.inj hs' ▸ inv_ping hinv hidle sent
  | receive => exact inv_receive hinv hstep
  | handle sent => exact inv_handle hc hinv hstep
  | broadcast expr => exact absurd rfl (hquiet expr)
  | other server => exact Option.some.inj hstep ▸ hinv.with_server server (le_refl _)
  | close kept => exact Option.some.inj hstep ▸ inv_close hinv kept
  | leave =>
      obtain ⟨hidle, hs'⟩ := Option.ite_none_right_eq_some.mp hstep
      exact Option.some.inj hs' ▸ inv_leave hinv hidle

theorem inv_run (hc : c.Faithful) {acts : List (Act σ ν)} (hinv : s.Inv c)
    (hquiet : ∀ expr, Act.broadcast expr ∉ acts) (hrun : s.run c h fd acts = some s') :
    s'.Inv c := by
  induction acts generalizing s with
  | nil => exact Option.some.inj hrun ▸ hinv
  | cons a acts ih =>
      obtain ⟨s1, hstep, hrest⟩ := Option.bind_eq_some_iff.mp hrun
      have ha (expr : Expr ν) : a ≠ .broadcast expr :=
        fun heq => hquiet expr (heq ▸ List.mem_cons_self)
      exact ih (inv_step hc hinv ha hstep)
        (fun expr hmem => hquiet expr (List.mem_cons_of_mem _ hmem)) hrest

/-- **Calls get their own answers** in every run without a broadcast to the client. -/
theorem run_aligned (hc : c.Faithful) (h : Handlers σ ν) (fd : ℕ) (server : σ)
    (acts : List (Act σ ν)) (hquiet : ∀ expr, Act.broadcast expr ∉ acts)
    (hrun : (initial server).run c h fd acts = some s) : s.Aligned c :=
  (inv_run hc (inv_initial c server) hquiet hrun).aligned

/-- Two calls and a ping. -/
def callsAndPing : List (Act Unit Bool) :=
  [.call (.object true) true, .handle true, .receive, .ping true, .handle true, .receive,
    .send (.object true) true, .call (.object false) true, .handle true, .handle true, .receive]

theorem run_callsAndPing_aligned : ∃ s : State Unit Bool,
    (initial ()).run truthCodec truthHandlers 4 callsAndPing = some s ∧
      s.returned = [(0, .object true), (1, .object false)] ∧ s.Aligned truthCodec :=
  ⟨_, rfl, rfl, run_aligned truthCodec_faithful truthHandlers 4 () callsAndPing
    (fun _ hmem => by simp [callsAndPing] at hmem) rfl⟩

/-- A broadcast between two calls. -/
def callsAndBroadcast : List (Act Unit Bool) :=
  [.broadcast (.object false), .call (.object true) true, .handle true, .receive,
    .call (.object false) true, .receive]

/-- After a broadcast the second call returns the result of the first one. -/
theorem run_callsAndBroadcast_not_aligned : ∃ s : State Unit Bool,
    (initial ()).run truthCodec truthHandlers 4 callsAndBroadcast = some s ∧
      s.requests = [(1, .object true), (2, .object false)] ∧
      s.returned = [(1, .object true)] ∧ ¬ s.Aligned truthCodec := by
  refine ⟨_, rfl, rfl, rfl, ?_⟩
  intro haligned
  obtain ⟨id, expr, result, hrequest, hresult, hvalue⟩ :=
    haligned.own 1 (.object true) List.mem_cons_self
  cases hresult

end State

end Lush.Wire
