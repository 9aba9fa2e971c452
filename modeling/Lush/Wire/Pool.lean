import Lush.Wire.Message

/-!
# The connection pool

`WirePool` of `wire.lsh`.  A pool has named targets, each with at most one connection, which is
made when it is first needed.  What the network does is given beforehand: the connections that
can be made, and the fate of each request.

The macro `on-error` does not stop an error, so that a call whose connection fails signals the
error and is not tried again.  What is tried again is a call whose value is `()`.
-/

namespace Lush.Wire

/-- A connection handle, with the descriptor of the connection at the server. -/
structure Conn where
  fd : ℤ
  nextMsgId : ℕ
  peer : ℕ

/-- What becomes of a request. -/
inductive Fate
  /-- It is delivered, and the response arrives. -/
  | works
  /-- It is not delivered. -/
  | refused
  /-- It is delivered, and the response is lost. -/
  | lost

/-- The connection handles, the servers and the network. -/
structure World (σ ν : Type) where
  server : σ
  conns : List Conn
  /-- What the next connections are: the descriptor of the client and that of the server. -/
  connects : List (Option (ℕ × ℕ))
  /-- What the next requests become. -/
  fates : List Fate
  /-- The requests that were sent, with the handles. -/
  sent : List (ℕ × Expr ν)
  /-- What the servers have evaluated. -/
  evaluated : List (BitVec (8 * 4) × Expr ν × Option ν)

/-- A named target. -/
structure Target where
  host : CString
  port : ℕ
  conn : Option ℕ
  retries : ℕ

/-- `WirePool`. -/
structure Pool where
  connections : CString → Option Target
  autoReconnect : Bool

variable {σ ν : Type}

namespace World

/-- The descriptor of a handle. -/
def fd (w : World σ ν) (k : ℕ) : ℤ :=
  match w.conns[k]? with
  | some conn => conn.fd
  | none => -1

/-- `wire-connect`. -/
def connect (w : World σ ν) : Except Fault ℕ × World σ ν :=
  match w.connects with
  | some (fd, peer) :: connects =>
      (.ok w.conns.length, { w with connects := connects, conns := w.conns ++ [⟨fd, 1, peer⟩] })
  | none :: connects => (.error (.error "failed to connect"), { w with connects := connects })
  | [] => (.error (.error "failed to connect"), w)

/-- `wire-close`. -/
def close (w : World σ ν) (k : ℕ) : World σ ν :=
  match w.conns[k]? with
  | some conn =>
      if 0 ≤ conn.fd then { w with conns := w.conns.set k { conn with fd := -1 } } else w
  | none => w

/-- The message of a request is handled by the server. -/
def serve (c : Codec ν) (h : Handlers σ ν) (w : World σ ν) (peer : ℕ) (m : Message) :
    Except Fault (Option Message) × World σ ν :=
  let (reply, server) := handleMessage c h w.server peer m
  (reply, { w with
    server := server
    evaluated := w.evaluated ++ evaluation c h w.server peer m })

/-- `wire-call`. -/
def call (c : Codec ν) (h : Handlers σ ν) (w : World σ ν) (k : ℕ) (expr : Expr ν) :
    Except Fault (Expr ν) × World σ ν :=
  match w.conns[k]? with
  | none => (.error .undefined, w)
  | some conn =>
      let w := { w with conns := w.conns.set k { conn with nextMsgId := conn.nextMsgId + 1 } }
      match c.encodeRequest expr with
      | .error e => (.error e, w)
      | .ok (encoding, payload) =>
          let m := sentMessage msgSync encoding (BitVec.ofNat _ conn.nextMsgId) payload
          if conn.fd < 0 then (.error (.error "failed to write message"), w)
          else
            match w.fates with
            | .works :: fates =>
                let w := { w with fates := fates, sent := w.sent ++ [(k, expr)] }
                let (reply, w) := w.serve c h conn.peer m
                match reply with
                | .ok (some frame) => (c.readResponse frame, w)
                | _ => (.error (.error "connection closed"), w)
            | .lost :: fates =>
                let w := { w with fates := fates, sent := w.sent ++ [(k, expr)] }
                (.error (.error "connection closed"), (w.serve c h conn.peer m).2)
            | .refused :: fates =>
                (.error (.error "failed to write message"), { w with fates := fates })
            | [] => (.error (.error "failed to write message"), w)

end World

namespace Pool

/-- A target is entered under its name. -/
def set (p : Pool) (name : CString) (info : Target) : Pool :=
  { p with connections := Function.update p.connections name (some info) }

/-- A new pool. -/
def new : Pool where
  connections _ := none
  autoReconnect := true

/-- `add`. -/
def add (p : Pool) (name host : CString) (port : ℕ) : Pool :=
  p.set name ⟨host, port, none, 0⟩

/-- A handle that is not closed. -/
def valid (w : World σ ν) (conn : Option ℕ) : Option ℕ :=
  conn.bind fun k => if w.fd k < 0 then none else some k

/-- `get`.  If no connection can be made, the error of `wire-connect` is not stopped, so that
the number of retries is never raised. -/
def get (p : Pool) (w : World σ ν) (name : CString) : Except Fault ℕ × Pool × World σ ν :=
  match p.connections name with
  | none => (.error (.error "unknown target"), p, w)
  | some info =>
      match valid w info.conn with
      | some k => (.ok k, p, w)
      | none =>
          let info := { info with conn := none }
          match w.connect with
          | (.error e, w) => (.error e, p.set name info, w)
          | (.ok k, w) => (.ok k, p.set name { info with conn := some k, retries := 0 }, w)

/-- The connection of a target is closed and forgotten. -/
def drop (p : Pool) (w : World σ ν) (name : CString) : Pool × World σ ν :=
  match p.connections name with
  | none => (p, w)
  | some info =>
      (p.set name { info with conn := none },
        match info.conn with
        | some k => w.close k
        | none => w)

/-- A value is `()`. -/
def isNil (nil : ν → Bool) : Expr ν → Bool
  | .text _ => false
  | .object v => nil v

/-- `call`; `nil` tells the object `()`. -/
def call (c : Codec ν) (h : Handlers σ ν) (nil : ν → Bool) (p : Pool) (w : World σ ν)
    (name : CString) (expr : Expr ν) : Except Fault (Expr ν) × Pool × World σ ν :=
  match p.get w name with
  | (.error e, p, w) => (.error e, p, w)
  | (.ok k, p, w) =>
      match w.call c h k expr with
      | (.error e, w) => (.error e, p, w)
      | (.ok result, w) =>
          if isNil nil result = false then (.ok result, p, w)
          else if p.autoReconnect then
            let (p, w) := p.drop w name
            match p.get w name with
            | (.error e, p, w) => (.error e, p, w)
            | (.ok k, p, w) =>
                let (result, w) := w.call c h k expr
                (result, p, w)
          else (.error (.error "call failed"), p, w)

end Pool

/-! ## A call that works -/

variable {c : Codec ν} {h : Handlers σ ν} {nil : ν → Bool} {p : Pool} {w : World σ ν}
  {name : CString} {expr : Expr ν} {k : ℕ} {result : ν}

/-- The connection works: the request is delivered, the handler gives a result, and the response
arrives. -/
def World.Works (c : Codec ν) (h : Handlers σ ν) (w : World σ ν) (k : ℕ) (expr : Expr ν)
    (result : ν) : Prop :=
  ∃ conn encoding payload fates encoded,
    w.conns[k]? = some conn ∧ 0 ≤ conn.fd ∧ w.fates = .works :: fates ∧
    c.encodeRequest expr = .ok (encoding, payload) ∧
    (h.onSync w.server conn.peer expr encoding).1 = some result ∧
    c.encodeResult false encoding result = .ok encoded

/-- **The request is evaluated once and the call returns its value.** -/
structure Pool.Once (c : Codec ν) (w : World σ ν) (k : ℕ) (expr : Expr ν) (result : ν)
    (after : Except Fault (Expr ν) × Pool × World σ ν) : Prop where
  evaluated : ∃ id, after.2.2.evaluated = w.evaluated ++ [(id, expr, some result)]
  returned : after.1 = .ok (c.answer expr result)
  sent : after.2.2.sent = w.sent ++ [(k, expr)]

/-- What a call of a connection that works does. -/
theorem World.Works.call_eq (hc : c.Faithful) (hworks : w.Works c h k expr result) :
    (w.call c h k expr).1 = .ok (c.answer expr result) ∧
      (∃ id, (w.call c h k expr).2.evaluated = w.evaluated ++ [(id, expr, some result)]) ∧
      (w.call c h k expr).2.sent = w.sent ++ [(k, expr)] := by
  obtain ⟨conn, encoding, payload, fates, ⟨enc, bytes⟩, hconn, hopen, hfates, hencode, hresult,
    hbytes⟩ := hworks
  have heval := (handleMessage_sync hc h w.server conn.peer hencode
    (BitVec.ofNat _ conn.nextMsgId)).1
  have hreply := handleMessage_result hc h w.server conn.peer hencode
    (BitVec.ofNat _ conn.nextMsgId) hresult hbytes
  have hresponse := hc.read_response hencode hbytes (BitVec.ofNat _ conn.nextMsgId)
  rw [hresult] at heval
  unfold World.call
  simp only [hconn, hencode, if_neg (not_lt.mpr hopen), hfates, World.serve, hreply]
  exact ⟨hresponse, ⟨_, by rw [heval]⟩, trivial⟩

/-- A call returns a value only for a request that it has sent. -/
theorem World.call_sent {value : Expr ν} (hcall : (w.call c h k expr).1 = .ok value) :
    (w.call c h k expr).2.sent = w.sent ++ [(k, expr)] := by
  unfold World.call at hcall ⊢
  cases hconn : w.conns[k]? with
  | none => simp only [hconn] at hcall; cases hcall
  | some conn =>
      cases hencode : c.encodeRequest expr with
      | error e => simp only [hconn, hencode] at hcall; cases hcall
      | ok encoded =>
          by_cases hfd : conn.fd < 0
          · simp only [hconn, hencode, if_pos hfd] at hcall
            cases hcall
          · simp only [hconn, hencode, if_neg hfd] at hcall ⊢
            rcases hfates : w.fates with _ | ⟨fate, fates⟩
            · simp only [hfates] at hcall
              cases hcall
            · cases fate with
              | refused => simp only [hfates] at hcall; cases hcall
              | lost => simp only [hfates] at hcall; cases hcall
              | works =>
                  simp only [hfates, World.serve] at hcall ⊢
                  split
                  · rfl
                  · rfl

/-- What was sent and evaluated. -/
def World.record (w : World σ ν) : List (ℕ × Expr ν) × List (BitVec (8 * 4) × Expr ν × Option ν) :=
  (w.sent, w.evaluated)

theorem World.record_connect (w : World σ ν) : w.connect.2.record = w.record := by
  unfold World.connect
  split <;> rfl

theorem World.record_close (w : World σ ν) (k : ℕ) : (w.close k).record = w.record := by
  unfold World.close
  split
  · split_ifs <;> rfl
  · rfl

/-- A connection is made without a request. -/
theorem Pool.record_get (p : Pool) (w : World σ ν) (name : CString) :
    (p.get w name).2.2.record = w.record := by
  unfold Pool.get
  cases p.connections name with
  | none => rfl
  | some info =>
      simp only
      cases Pool.valid w info.conn with
      | some k => rfl
      | none =>
          have hrecord := w.record_connect
          simp only
          rcases hconnect : w.connect with ⟨e | k, w'⟩
          · rw [hconnect] at hrecord
            exact hrecord
          · rw [hconnect] at hrecord
            exact hrecord

theorem Pool.record_drop (p : Pool) (w : World σ ν) (name : CString) :
    (p.drop w name).2.record = w.record := by
  unfold Pool.drop
  cases p.connections name with
  | none => rfl
  | some info =>
      cases hconn : info.conn with
      | none => simp only [hconn]
      | some k => simp only [hconn, World.record_close]

/-- **A call whose value is `()`** is an error, or is sent again. -/
theorem Pool.call_nil {p' : Pool} {w' w'' : World σ ν} {value : Expr ν}
    (hget : p.get w name = (.ok k, p', w')) (hcall : w'.call c h k expr = (.ok value, w''))
    (hnil : isNil nil value = true) {value' : Expr ν}
    (hreturned : (p.call c h nil w name expr).1 = .ok value') :
    ∃ k', (p.call c h nil w name expr).2.2.sent = w.sent ++ [(k, expr)] ++ [(k', expr)] := by
  have hsent : w''.sent = w.sent ++ [(k, expr)] := by
    have hfirst := World.call_sent (w := w') (by rw [hcall])
    have hrecord := p.record_get w name
    rw [hget] at hrecord
    rw [hcall, (Prod.mk.inj hrecord).1] at hfirst
    exact hfirst
  unfold Pool.call at hreturned ⊢
  simp only [hget, hcall, hnil, Bool.true_eq_false, if_false] at hreturned ⊢
  by_cases hauto : p'.autoReconnect = true
  · simp only [hauto, if_true] at hreturned ⊢
    have hdrop := p'.record_drop w'' name
    have hagain := (p'.drop w'' name).1.record_get (p'.drop w'' name).2 name
    rcases hget' : (p'.drop w'' name).1.get (p'.drop w'' name).2 name with ⟨e | k', p3, w3⟩
    · simp only [hget'] at hreturned
      cases hreturned
    · simp only [hget'] at hreturned hagain ⊢
      refine ⟨k', ?_⟩
      rw [World.call_sent hreturned, (Prod.mk.inj hagain).1, (Prod.mk.inj hdrop).1, hsent]
  · simp only [Bool.not_eq_true _ ▸ hauto] at hreturned
    cases hreturned

/-- **A pool calls once** through a connection that works, exactly if the value is not `()`. -/
theorem Pool.call_once_iff (hc : c.Faithful) (h : Handlers σ ν) (nil : ν → Bool) (p : Pool)
    (w : World σ ν) (name : CString) (expr : Expr ν) (k : ℕ) (p' : Pool) (w' : World σ ν)
    (result : ν) (hget : p.get w name = (.ok k, p', w')) (hworks : w'.Works c h k expr result) :
    Pool.Once c w k expr result (p.call c h nil w name expr) ↔
      isNil nil (c.answer expr result) = false := by
  obtain ⟨hreturned, ⟨id, hevaluated⟩, hsent⟩ := hworks.call_eq hc
  have hcall : w'.call c h k expr = (.ok (c.answer expr result), (w'.call c h k expr).2) := by
    rw [← hreturned]
  have hrecord := p.record_get w name
  rw [hget] at hrecord
  obtain ⟨hsame, hsame'⟩ := Prod.mk.inj hrecord
  constructor
  · -- a value `()` is not returned by the first call
    intro honce
    by_contra hnil
    obtain ⟨k', hagain⟩ := Pool.call_nil hget hcall (Bool.not_eq_false _ ▸ hnil) honce.returned
    have hlength := congrArg List.length (honce.sent.symm.trans hagain)
    simp only [List.length_append, List.length_singleton] at hlength
    omega
  · intro hvalue
    have heq : p.call c h nil w name expr =
        (.ok (c.answer expr result), p', (w'.call c h k expr).2) := by
      unfold Pool.call
      simp only [hget]
      rw [hcall]
      simp only [hvalue, if_true]
    rw [heq]
    exact ⟨⟨id, hevaluated.trans (by rw [← hsame'])⟩, rfl, hsent.trans (by rw [← hsame])⟩

/-! ## An example -/

/-- The name "db". -/
def db : CString := ⟨[100, 98], by decide⟩

/-- A pool with one target, whose connection is not made yet. -/
def oneTarget : Pool := Pool.new.add db ⟨[104], by decide⟩ 5555

/-- A network in which everything works. -/
def goodNetwork : World Unit Bool where
  server := ()
  conns := []
  connects := [some (5, 7), some (6, 8)]
  fates := [.works, .works]
  sent := []
  evaluated := []

theorem oneTarget_call_t : ∃ p' w', oneTarget.get goodNetwork db = (.ok 0, p', w') ∧
    (Pool.Once truthCodec goodNetwork 0 (.object true) true
        (oneTarget.call truthCodec truthHandlers (fun v => !v) goodNetwork db (.object true)) ↔
      Pool.isNil (fun v => !v) (truthCodec.answer (.object true) true) = false) :=
  ⟨_, _, rfl, Pool.call_once_iff truthCodec_faithful truthHandlers (fun v => !v) oneTarget
    goodNetwork db (.object true) 0 _ _ true rfl
    ⟨_, _, _, _, _, rfl, by decide, rfl, rfl, rfl, rfl⟩⟩

/-- The value `()` is taken for a failure: it is evaluated again at a second connection. -/
theorem oneTarget_call_nil_twice :
    (oneTarget.call truthCodec truthHandlers (fun v => !v) goodNetwork db
        (.object false)).2.2.evaluated =
      [(1, .object false, some false), (1, .object false, some false)] ∧
    ¬Pool.Once truthCodec goodNetwork 0 (.object false) false
      (oneTarget.call truthCodec truthHandlers (fun v => !v) goodNetwork db (.object false)) := by
  refine ⟨rfl, ?_⟩
  intro honce
  have hlength : [(0, Expr.object false), (1, Expr.object false)].length = 1 :=
    congrArg List.length honce.sent
  cases hlength

end Lush.Wire
