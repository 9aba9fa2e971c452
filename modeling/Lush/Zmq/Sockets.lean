import Lush.Wire.Serialize

/-!
# Receiving from sockets

A message has one frame or more.  `zmq_recv` takes one frame from a socket: what is left of the
message comes next, and then the frames of the next message.  A frame that is too long for the
buffer is cut off there, but its whole length is returned.

The receivers of `zmq-serde.lsh` share one buffer.  A receiver that has no frame to take waits,
which a socket with the flag `*zmq-dontwait*` does not do at the start of a message.
-/

namespace Lush.Zmq

open Wire (bytesToString newMatrix)

/-- `*zmq-recv-buf-size*`. -/
def recvBufSize : ℕ := 1048576

/-- The size of `identity`. -/
def identitySize : ℕ := 256

/-! ## Sockets -/

/-- A message, with its first frame. -/
structure Message where
  first : List UInt8
  rest : List (List UInt8)
deriving DecidableEq

/-- The frames of a message; the flag `ZMQ_RCVMORE` says that there are more after one. -/
def frames (first : List UInt8) : List (List UInt8) → List (List UInt8 × Bool)
  | [] => [(first, false)]
  | next :: rest => (first, true) :: frames next rest

def Message.frames (m : Message) : List (List UInt8 × Bool) := Zmq.frames m.first m.rest

/-- A socket: the frames that come, `ZMQ_RCVMORE`, and what `handle_table` keeps. -/
structure Socket where
  frames : List (List UInt8 × Bool)
  more : Bool
  identity : List UInt8

/-- The sockets, and `*zmq-recv-buf*`. -/
structure State (ι : Type) where
  sockets : ι → Socket
  buf : List UInt8
  size : buf.length = recvBufSize

variable {ι ν : Type}

namespace State

section

variable (st : State ι)

/-- A frame at the start of the buffer, or as much of it as there is room for. -/
def fill (frame : List UInt8) : State ι where
  sockets := st.sockets
  buf := frame.take recvBufSize ++ st.buf.drop (min frame.length recvBufSize)
  size := by
    rw [List.length_append, List.length_take, List.length_drop, st.size]
    omega

/-- `(*zmq-recv-buf* i)`, for every `i` below `n`. -/
def readBytes (n : ℕ) : Except Fault (List UInt8) :=
  if n ≤ recvBufSize then .ok (st.buf.take n) else .error (.error "subscript out of range")

/-- A new matrix with the first bytes of the buffer. -/
def readPayload (n : ℕ) : Except Fault (List UInt8) := do
  newMatrix n
  st.readBytes n

end

section

variable [DecidableEq ι] (st : State ι) (id : ι)

def set (s : Socket) : State ι := { st with sockets := Function.update st.sockets id s }

/-- `zmq_recv` of the next frame, if there is one. -/
def recvFrame : Option (List UInt8 × State ι) :=
  match (st.sockets id).frames with
  | [] => none
  | (frame, more) :: frames => some (frame, st.set id { st.sockets id with frames, more })

/-- `_zmq-recv` into the buffer: the length of the frame. -/
def zmqRecv : Option (ℕ × State ι) :=
  match st.recvFrame id with
  | none => none
  | some (frame, st) => some (frame.length, st.fill frame)

/-- `lush_zmq_router_recv`. -/
def routerRecv : Option (ℕ × State ι) :=
  match st.recvFrame id with
  | none => none
  | some (identity, st) =>
      let st := st.set id { st.sockets id with identity := identity.take identitySize }
      match st.recvFrame id with
      | none => none
      | some (_, st) => st.zmqRecv id

end

/-- `lush_zmq_router_send`: the frames that are sent. -/
def routerSend (st : State ι) (id : ι) (payload : List UInt8) : Option (List (List UInt8)) :=
  if (st.sockets id).identity = [] then none else some [(st.sockets id).identity, [], payload]

end State

/-! ## Receivers -/

/-- What a receiver returns: the topic, for a subscriber, and what `bread` makes of the
payload. -/
structure Reply (ν : Type) where
  topic : Option CString
  payload : Option ν
deriving DecidableEq

/-- A receiver signals an error, or returns a reply or `()`. -/
abbrev Result (ν : Type) := Except Fault (Option (Reply ν))

/-- `_wire-bread-from-bytes` of a new matrix with the payload, for a reply. -/
def State.breadPayload (bread : List UInt8 → Except Fault ν) (st : State ι) (topic : Option CString)
    (n : ℕ) : Result ν :=
  match st.readPayload n with
  | .error e => .error e
  | .ok payload =>
      match bread payload with
      | .error e => .error e
      | .ok v => .ok (some ⟨topic, some v⟩)

variable [DecidableEq ι] (bread : List UInt8 → Except Fault ν) (st : State ι) (id : ι)
  (dontwait : Bool)

/-- `zmq-sub-recv`. -/
def zmqSubRecv : Option (Result ν × State ι) :=
  match st.zmqRecv id with
  | none => if dontwait then some (.ok none, st) else none
  | some (n, st) =>
      match st.readBytes n with
      | .error e => some (.error e, st)
      | .ok bytes =>
          let topic := bytesToString bytes
          if (st.sockets id).more = false then some (.ok (some ⟨some topic, none⟩), st)
          else
            match st.zmqRecv id with
            | none => none
            | some (pn, st) => some (st.breadPayload bread (some topic) pn, st)

/-- `zmq-query-recv`. -/
def zmqQueryRecv : Option (Result ν × State ι) :=
  match st.zmqRecv id with
  | none => if dontwait then some (.ok none, st) else none
  | some (_, st) =>
      if (st.sockets id).more = false then some (.ok none, st)
      else
        match st.zmqRecv id with
        | none => none
        | some (pn, st) => some (st.breadPayload bread none pn, st)

/-- `zmq-router-recv-query`. -/
def zmqRouterRecvQuery : Option (Result ν × State ι) :=
  match st.routerRecv id with
  | none => none
  | some (n, st) =>
      if n = 0 then some (.ok none, st)
      else some (st.breadPayload bread none n, st)

/-- The receivers. -/
inductive Kind
  | sub (dontwait : Bool)
  | query (dontwait : Bool)
  | router
deriving DecidableEq

/-- A call of a receiver. -/
def receive : Kind → Option (Result ν × State ι)
  | .sub dontwait => zmqSubRecv bread st id dontwait
  | .query dontwait => zmqQueryRecv bread st id dontwait
  | .router => zmqRouterRecvQuery bread st id

end Lush.Zmq
