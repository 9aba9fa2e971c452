import Lush.Wire.Reader
import Lush.Wire.Message

/-!
# The server

`WireServer` of `wire.lsh`: `serve-once` reads what has arrived from every client that is ready,
and handles each message as soon as it is complete.  What `select` and `accept` find is given
with the call (`Batch`).

What happens in a call is the list of its `happenings`: a connection, a message or the end of a
stream.  The server returns if none of them signals an error (`Calm`); `on-error` does not stop
one.
-/

namespace Lush.Wire

/-- The callbacks of a server for its connections; they return whether they signal no error. -/
structure Hooks (σ : Type) where
  onConnect : σ → ℕ → Bool × σ
  onDisconnect : σ → ℕ → Bool × σ

/-- `WireServer`, with the sockets of its clients. -/
structure Server (σ : Type) where
  /-- What the handlers work on. -/
  handlers : σ
  clientFds : List ℕ
  clientState : ℕ → Option ReadState
  lastActivity : ℕ → ℤ
  idleTimeout : ℤ
  sockets : ℕ → Socket
  /-- The peer can be written to. -/
  writable : ℕ → Bool
  /-- What was sent to the client. -/
  sent : ℕ → List Message

/-- What `select` and `accept` find. -/
structure Batch {σ : Type} (srv : Server σ) where
  /-- A new connection, and whether it is local. -/
  accepted : Option (ℕ × Bool)
  ready : ℕ → Bool
  now : ℤ
  fresh : ∀ fd islocal, accepted = some (fd, islocal) → fd ∉ srv.clientFds

/-- The result of an operation of the server. -/
abbrev Result (σ : Type) : Type := Except Fault Unit × Server σ

variable {σ ν : Type}

/-- One operation after another. -/
def Result.andThen (r : Result σ) (f : Server σ → Result σ) : Result σ :=
  match r with
  | (.ok (), srv) => f srv
  | (.error e, srv) => (.error e, srv)

namespace Server

/-- A callback is called. -/
def hook (srv : Server σ) (r : Bool × σ) : Result σ :=
  (if r.1 then .ok () else .error (.error "callback"), { srv with handlers := r.2 })

/-- `_add-client`. -/
def addClient (hooks : Hooks σ) (now : ℤ) (srv : Server σ) (fd : ℕ) : Result σ :=
  hook { srv with
    clientFds := srv.clientFds ++ [fd]
    clientState := Function.update srv.clientState fd (some .initial)
    lastActivity := Function.update srv.lastActivity fd now }
    (hooks.onConnect srv.handlers fd)

/-- `_remove-client`. -/
def removeClient (hooks : Hooks σ) (srv : Server σ) (fd : ℕ) : Result σ :=
  hook { srv with
    clientState := Function.update srv.clientState fd none
    clientFds := srv.clientFds.filter (· ≠ fd) }
    (hooks.onDisconnect srv.handlers fd)

/-- `_wire-send-message`. -/
def sendMessage (srv : Server σ) (fd : ℕ) (m : Message) : Result σ :=
  if srv.writable fd then
    (.ok (), { srv with sent := Function.update srv.sent fd (srv.sent fd ++ [m]) })
  else (.error (.error "failed to write message"), srv)

/-- `_handle-message`. -/
def handle (c : Codec ν) (h : Handlers σ ν) (srv : Server σ) (fd : ℕ) (m : Message) : Result σ :=
  let (reply, handlers) := handleMessage c h srv.handlers fd m
  let srv := { srv with handlers := handlers }
  match reply with
  | .error e => (.error e, srv)
  | .ok none => (.ok (), srv)
  | .ok (some frame) => srv.sendMessage fd frame

/-- A client is active. -/
def touch (srv : Server σ) (fd : ℕ) (now : ℤ) : Server σ :=
  { srv with lastActivity := Function.update srv.lastActivity fd now }

/-- The reader of a client has received something. -/
def read (srv : Server σ) (fd : ℕ) (state : ReadState) (k : Socket) : Server σ :=
  { srv with
    clientState := Function.update srv.clientState fd (some state)
    sockets := Function.update srv.sockets fd k }

/-- The loop that reads from a client until nothing more has arrived. -/
def drain (c : Codec ν) (h : Handlers σ ν) (hooks : Hooks σ) (now : ℤ) :
    ℕ → Server σ → ℕ → Result σ
  | 0, srv, fd => (.error .depth, srv.touch fd now)
  | calls + 1, srv, fd =>
      match srv.clientState fd with
      | none => srv.removeClient hooks fd
      | some state =>
          match tryReadClient state (srv.sockets fd) with
          | .error e => (.error e, srv.touch fd now)
          | .ok (.partial_, state, k) => (.ok (), (srv.touch fd now).read fd state k)
          | .ok (.disconnect, state, k) =>
              ((srv.touch fd now).read fd state k).removeClient hooks fd
          | .ok (.message m, state, k) =>
              (((srv.touch fd now).read fd state k).handle c h fd m).andThen fun srv =>
                drain c h hooks now calls srv fd

/-- The clients that are ready, one after the other. -/
def drainAll (c : Codec ν) (h : Handlers σ ν) (hooks : Hooks σ) (now : ℤ) (srv : Server σ) :
    List ℕ → Result σ
  | [] => (.ok (), srv)
  | fd :: fds =>
      (srv.drain c h hooks now ((srv.sockets fd).size + 1) fd).andThen fun srv =>
        srv.drainAll c h hooks now fds

/-- Clients are removed, one after the other. -/
def removeAll (hooks : Hooks σ) (srv : Server σ) : List ℕ → Result σ
  | [] => (.ok (), srv)
  | fd :: fds => (srv.removeClient hooks fd).andThen fun srv => srv.removeAll hooks fds

/-- `_sweep-idle-clients`. -/
def sweepIdleClients (hooks : Hooks σ) (now : ℤ) (srv : Server σ) : Result σ :=
  srv.removeAll hooks (srv.clientFds.filter fun fd =>
    (srv.clientState fd).isSome ∧ srv.idleTimeout < now - srv.lastActivity fd)

/-- The clients that `select` finds ready; it is asked for the first 256. -/
def readyFds (srv : Server σ) (ready : ℕ → Bool) : List ℕ :=
  (srv.clientFds.take 256).filter ready

/-- A new connection is accepted, if there is one; one that is not local is closed at once. -/
def accept (hooks : Hooks σ) (now : ℤ) (srv : Server σ) : Option (ℕ × Bool) → Result σ
  | some (fd, true) => srv.addClient hooks now fd
  | _ => (.ok (), srv)

/-- `serve-once`, of a server that listens. -/
def serveOnce (c : Codec ν) (h : Handlers σ ν) (hooks : Hooks σ) (srv : Server σ)
    (b : Batch srv) : Result σ :=
  let fds := srv.readyFds b.ready
  ((srv.accept hooks b.now b.accepted).andThen fun srv =>
    srv.drainAll c h hooks b.now fds).andThen fun srv =>
      if 0 < srv.idleTimeout then srv.sweepIdleClients hooks b.now else (.ok (), srv)

end Server

/-! ## What happens in a call -/

/-- What happens to a server. -/
inductive Happening
  | connect (fd : ℕ)
  | disconnect (fd : ℕ)
  | message (fd : ℕ) (m : Message)
  /-- A receive outside of the buffer. -/
  | overrun (fd : ℕ)

/-- No step of the handling of a message signals an error: it can be decoded, its handler
signals none, and what is to be sent can be encoded and written. -/
def Harmless (c : Codec ν) (h : Handlers σ ν) (writable : Bool) (s : σ) (fd : ℕ) (m : Message) :
    Prop :=
  ∃ encoding payload, c.decodeRequest m = .ok (encoding, payload) ∧
    if m.msgType = msgSync then
      ∃ expr result encoded, c.decodeExpr encoding payload = .ok expr ∧
        (h.onSync s fd expr encoding).1 = some result ∧
        c.encodeResult (m.encoding = encCompressed) encoding result = .ok encoded ∧
        writable = true
    else if m.msgType = msgAsync then
      ∃ expr result, c.decodeExpr encoding payload = .ok expr ∧
        (h.onAsync s fd expr encoding).1 = some result
    else m.msgType = msgHeartbeat → writable = true

namespace Happening

/-- It signals no error. -/
def Calm (c : Codec ν) (h : Handlers σ ν) (hooks : Hooks σ) (writable : ℕ → Bool) (s : σ) :
    Happening → Prop
  | connect fd => (hooks.onConnect s fd).1 = true
  | disconnect fd => (hooks.onDisconnect s fd).1 = true
  | message fd m => Harmless c h (writable fd) s fd m
  | overrun _ => False

/-- What the handlers leave. -/
def next (c : Codec ν) (h : Handlers σ ν) (hooks : Hooks σ) (s : σ) : Happening → σ
  | connect fd => (hooks.onConnect s fd).2
  | disconnect fd => (hooks.onDisconnect s fd).2
  | message fd m => (handleMessage c h s fd m).2
  | overrun _ => s

/-- What is sent to a client. -/
def reply (c : Codec ν) (h : Handlers σ ν) (s : σ) (fd : ℕ) : Happening → List Message
  | message fd' m =>
      if fd' = fd then
        match (handleMessage c h s fd' m).1 with
        | .ok (some frame) => [frame]
        | _ => []
      else []
  | _ => []

/-- The client that it is about. -/
def fd : Happening → ℕ
  | connect fd | disconnect fd | message fd _ | overrun fd => fd

end Happening

/-- None of the happenings signals an error. -/
def Calm (c : Codec ν) (h : Handlers σ ν) (hooks : Hooks σ) (writable : ℕ → Bool) :
    σ → List Happening → Prop
  | _, [] => True
  | s, e :: es => e.Calm c h hooks writable s ∧ Calm c h hooks writable (e.next c h hooks s) es

/-- What the handlers leave after some happenings. -/
def after (c : Codec ν) (h : Handlers σ ν) (hooks : Hooks σ) (s : σ) (es : List Happening) : σ :=
  es.foldl (fun s e => e.next c h hooks s) s

/-- What is sent to a client in some happenings. -/
def replies (c : Codec ν) (h : Handlers σ ν) (hooks : Hooks σ) (fd : ℕ) :
    σ → List Happening → List Message
  | _, [] => []
  | s, e :: es => e.reply c h s fd ++ replies c h hooks fd (e.next c h hooks s) es

/-- What the reader of a client delivers until nothing more has arrived. -/
def drained : ℕ → ReadState → Socket → Except Fault (List Delivery × ReadState × Socket)
  | 0, _, _ => .error .depth
  | calls + 1, s, k => do
      let (outcome, s, k) ← tryReadClient s k
      match outcome with
      | .partial_ => return ([], s, k)
      | .disconnect => return ([.disconnect], s, k)
      | .message m =>
          let (ds, s, k) ← drained calls s k
          return (.message m :: ds, s, k)

/-- What happens at a client when its deliveries are handled. -/
def Delivery.happening (fd : ℕ) : Delivery → Happening
  | .disconnect => .disconnect fd
  | .message m => .message fd m

namespace Server

/-- What happens at a client that is ready. -/
def clientHappenings (srv : Server σ) (fd : ℕ) : List Happening :=
  match srv.clientState fd with
  | none => [.disconnect fd]
  | some state =>
      match drained ((srv.sockets fd).size + 1) state (srv.sockets fd) with
      | .ok (ds, _, _) => ds.map (Delivery.happening fd)
      | .error _ => [.overrun fd]

/-- The clients that are idle, but for those that are ready. -/
def idleFds (srv : Server σ) (b : Batch srv) : List ℕ :=
  srv.clientFds.filter fun fd => fd ∉ srv.readyFds b.ready ∧
    (srv.clientState fd).isSome ∧ srv.idleTimeout < b.now - srv.lastActivity fd

/-- What happens when a connection is accepted. -/
def acceptHappenings : Option (ℕ × Bool) → List Happening
  | some (fd, true) => [.connect fd]
  | _ => []

/-- **What happens in a call of `serve-once`.** -/
def happenings (srv : Server σ) (b : Batch srv) : List Happening :=
  acceptHappenings b.accepted ++
  (srv.readyFds b.ready).flatMap srv.clientHappenings ++
  (if 0 < srv.idleTimeout then (srv.idleFds b).map .disconnect else [])

end Server

end Lush.Wire
