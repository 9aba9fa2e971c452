import Lush.Wire.Frame

/-!
# Messages

How `wire.lsh` puts requests and responses into messages, and what a server answers to a
message.  A request is a string, which is sent as it is, or another object, which is sent with
`bwrite`.

The macro `on-error` adds an action to those that are run when an error is signalled; it does
not stop the error.  A handler that signals an error therefore leaves `_handle-message` without
an answer, and the branch that sends "evaluation error" is not reached.
-/

namespace Lush.Wire

open Words

/-- Binary serialization, printing and compression, for objects of type `ν`. -/
structure Codec (ν : Type) where
  /-- `bwrite`; without a result it signals an error. -/
  bwrite : ν → Option (List UInt8)
  /-- `bread`. -/
  bread : List UInt8 → Option ν
  /-- `(sprintf "%l" v)`. -/
  print : ν → CString
  /-- `LZ4_compress_default`; the empty list is a failure. -/
  lz4Compress : List UInt8 → List UInt8
  /-- `LZ4_decompress_safe` into a buffer of the given size. -/
  lz4Decompress : List UInt8 → ℕ → Option (List UInt8)

/-- What a handler gets and what a client asks for: a string or another object. -/
inductive Expr (ν : Type)
  | text (s : CString)
  | object (v : ν)
deriving DecidableEq

/-- The handlers of a server; without a result they signal an error. -/
structure Handlers (σ ν : Type) where
  onSync : σ → ℕ → Expr ν → UInt8 → Option ν × σ
  onAsync : σ → ℕ → Expr ν → UInt8 → Option ν × σ

def msgAsync : UInt8 := 0
def msgSync : UInt8 := 1
def msgResponse : UInt8 := 2
def msgError : UInt8 := 3
def msgHeartbeat : UInt8 := 4

def encSexp : UInt8 := 0
def encBinary : UInt8 := 1
def encCompressed : UInt8 := 2

/-- What arrives of a message that is sent with `_wire-send-message`. -/
def sentMessage (msgType encoding : UInt8) (msgId : BitVec (8 * 4)) (payload : List UInt8) :
    Message :=
  ⟨msgType, encoding, msgId, payloadArray payload⟩

/-- `_wire-string-to-bytes`. -/
def stringToBytes (s : CString) : List UInt8 := payloadArray s.bytes

/-- `_wire-bytes-to-string`; `(chr 0)` is the empty string. -/
def bytesToString (buf : List UInt8) : CString where
  bytes := buf.filter (· ≠ 0)
  nonzero h := by simpa using (List.mem_filter.mp h).2

variable {σ ν : Type}

/-- `*lz4-compress-threshold*`. -/
def lz4CompressThreshold : ℕ := 1024

/-- `_lz4-compress-payload`. -/
def Codec.compressPayload (c : Codec ν) (payload : List UInt8) : Option (List UInt8) :=
  if payload.length < lz4CompressThreshold then none
  else
    let compressed := c.lz4Compress payload
    if compressed = [] ∨ payload.length ≤ compressed.length + 4 then none
    else some (encode (BitVec.ofNat (8 * 4) payload.length) ++ compressed)

/-- `_lz4-decompress-payload`; a matrix has at least one element. -/
def Codec.decompressPayload (c : Codec ν) (compressed : List UInt8) :
    Except Fault (List UInt8) :=
  if compressed.length < 4 then .error .undefined
  else
    let origSize := (decode 4 (compressed.take 4)).toInt
    if origSize ≤ 0 then .error (.error "illegal dimension")
    else if compressed.length - 4 = 0 then .error (.error "illegal dimension")
    else
      match c.lz4Decompress (compressed.drop 4) origSize.toNat with
      | none => .error (.error "decompression failed")
      | some bytes => .ok bytes

/-- `_wire-bwrite-to-bytes`. -/
def Codec.bwriteToBytes (c : Codec ν) (v : ν) : Except Fault (List UInt8) :=
  match c.bwrite v with
  | none => .error (.error "bwrite")
  | some bytes => .ok (payloadArray bytes)

/-- `_wire-bread-from-bytes`. -/
def Codec.breadFromBytes (c : Codec ν) (bytes : List UInt8) : Except Fault ν :=
  match c.bread bytes with
  | none => .error (.error "bread")
  | some v => .ok v

/-- The encoding and the bytes of a request. -/
def Codec.encodeRequest (c : Codec ν) : Expr ν → Except Fault (UInt8 × List UInt8)
  | .text s => .ok (encSexp, stringToBytes s)
  | .object v => do return (encBinary, ← c.bwriteToBytes v)

/-- The request of a message, with its encoding after the decompression. -/
def Codec.decodeRequest (c : Codec ν) (m : Message) : Except Fault (UInt8 × List UInt8) :=
  if m.encoding = encCompressed then do return (encBinary, ← c.decompressPayload m.payload)
  else .ok (m.encoding, m.payload)

/-- The expression of a request. -/
def Codec.decodeExpr (c : Codec ν) (encoding : UInt8) (payload : List UInt8) :
    Except Fault (Expr ν) :=
  if encoding = encBinary then do return .object (← c.breadFromBytes payload)
  else .ok (.text (bytesToString payload))

/-- `_wire-send-message-maybe-compress`: the encoding and the bytes that are sent. -/
def Codec.maybeCompress (c : Codec ν) (encoding : UInt8) (payload : List UInt8) :
    UInt8 × List UInt8 :=
  if encoding = encBinary ∧ lz4CompressThreshold ≤ payload.length then
    match c.compressPayload payload with
    | some compressed => (encCompressed, compressed)
    | none => (encoding, payload)
  else (encoding, payload)

/-- The encoding and the bytes of a response. -/
def Codec.encodeResult (c : Codec ν) (wasCompressed : Bool) (encoding : UInt8) (result : ν) :
    Except Fault (UInt8 × List UInt8) :=
  if encoding = encBinary then do
    let bytes ← c.bwriteToBytes result
    return if wasCompressed then c.maybeCompress encBinary bytes else (encBinary, bytes)
  else .ok (encSexp, stringToBytes (c.print result))

/-- `_handle-message`, up to the sending: the message that is to be sent to the client, and the
state that the handlers leave. -/
def handleMessage (c : Codec ν) (h : Handlers σ ν) (s : σ) (fd : ℕ) (m : Message) :
    Except Fault (Option Message) × σ :=
  match c.decodeRequest m with
  | .error e => (.error e, s)
  | .ok (encoding, payload) =>
      if m.msgType = msgSync then
        match c.decodeExpr encoding payload with
        | .error e => (.error e, s)
        | .ok expr =>
            match h.onSync s fd expr encoding with
            | (none, s) => (.error (.error "handler"), s)
            | (some result, s) =>
                match c.encodeResult (m.encoding = encCompressed) encoding result with
                | .error e => (.error e, s)
                | .ok (enc, bytes) => (.ok (some (sentMessage msgResponse enc m.msgId bytes)), s)
      else if m.msgType = msgAsync then
        match c.decodeExpr encoding payload with
        | .error e => (.error e, s)
        | .ok expr =>
            match h.onAsync s fd expr encoding with
            | (none, s) => (.error (.error "handler"), s)
            | (some _, s) => (.ok none, s)
      else if m.msgType = msgHeartbeat then
        (.ok (some (sentMessage msgHeartbeat encSexp m.msgId [])), s)
      else (.ok none, s)

/-- The request that the server evaluates for a message, and what its handler makes of it. -/
def evaluation (c : Codec ν) (h : Handlers σ ν) (server : σ) (fd : ℕ) (m : Message) :
    List (BitVec (8 * 4) × Expr ν × Option ν) :=
  match c.decodeRequest m with
  | .error _ => []
  | .ok (encoding, payload) =>
      if m.msgType = msgSync then
        match c.decodeExpr encoding payload with
        | .error _ => []
        | .ok expr => [(m.msgId, expr, (h.onSync server fd expr encoding).1)]
      else []

/-- What `wire-call` makes of a response. -/
def Codec.readResponse (c : Codec ν) (m : Message) : Except Fault (Expr ν) :=
  if m.msgType = msgResponse then
    if m.encoding = encCompressed then do
      let decompressed ← c.decompressPayload m.payload
      return .object (← c.breadFromBytes decompressed)
    else if m.encoding = encBinary then do return .object (← c.breadFromBytes m.payload)
    else .ok (.text (bytesToString m.payload))
  else if m.msgType = msgError then .error (.error "remote error")
  else .error (.error "unexpected response type")

/-! ## Requests and responses of a client -/

/-- `bread` reads what `bwrite` has written. -/
def Codec.Faithful (c : Codec ν) : Prop :=
  ∀ v bytes, c.bwrite v = some bytes → c.bread (payloadArray bytes) = some v

/-- What a client sees of a result: its text where the request was a text. -/
def Codec.answer (c : Codec ν) (expr : Expr ν) (result : ν) : Expr ν :=
  match expr with
  | .text _ => .text (c.print result)
  | .object _ => .object result

variable {c : Codec ν} {h : Handlers σ ν}

theorem payloadArray_ne_nil (payload : List UInt8) : payloadArray payload ≠ [] := by
  unfold payloadArray
  split_ifs with hnil
  · exact List.cons_ne_nil _ _
  · exact hnil

@[simp] theorem payloadArray_payloadArray (payload : List UInt8) :
    payloadArray (payloadArray payload) = payloadArray payload :=
  if_neg (payloadArray_ne_nil payload)

/-- A string is read as it was sent. -/
@[simp] theorem bytesToString_stringToBytes (s : CString) :
    bytesToString (stringToBytes s) = s := by
  obtain ⟨bytes, hnonzero⟩ := s
  simp only [bytesToString, stringToBytes, payloadArray, CString.mk.injEq]
  split_ifs with hnil
  · subst hnil
    rfl
  · apply List.filter_eq_self.mpr
    intro b hb
    exact decide_eq_true (fun h0 => hnonzero (h0 ▸ hb))

theorem bwriteToBytes_ok {v : ν} {bytes : List UInt8} (hbytes : c.bwriteToBytes v = .ok bytes) :
    ∃ bytes', c.bwrite v = some bytes' ∧ bytes = payloadArray bytes' := by
  unfold Codec.bwriteToBytes at hbytes
  cases hv : c.bwrite v with
  | none =>
      rw [hv] at hbytes
      cases hbytes
  | some bytes' =>
      rw [hv] at hbytes
      exact ⟨bytes', rfl, (Except.ok.inj hbytes).symm⟩

theorem Codec.Faithful.bread_payloadArray (hc : c.Faithful) {v : ν} {bytes : List UInt8}
    (hbytes : c.bwriteToBytes v = .ok bytes) : c.breadFromBytes (payloadArray bytes) = .ok v := by
  obtain ⟨bytes', hwrite, rfl⟩ := bwriteToBytes_ok hbytes
  rw [payloadArray_payloadArray, Codec.breadFromBytes, hc v bytes' hwrite]

/-- **The server decodes the request of a client.** -/
theorem Codec.Faithful.decode_request (hc : c.Faithful) {expr : Expr ν} {encoding : UInt8}
    {payload : List UInt8} (hencode : c.encodeRequest expr = .ok (encoding, payload))
    (msgType : UInt8) (msgId : BitVec (8 * 4)) :
    encoding ≠ encCompressed ∧
      c.decodeRequest (sentMessage msgType encoding msgId payload) =
        .ok (encoding, payloadArray payload) ∧
      c.decodeExpr encoding (payloadArray payload) = .ok expr := by
  cases expr with
  | text s =>
      obtain ⟨rfl, rfl⟩ := Prod.mk.inj (Except.ok.inj hencode)
      refine ⟨by decide, rfl, ?_⟩
      show Except.ok (Expr.text (bytesToString (payloadArray (stringToBytes s)))) = _
      rw [stringToBytes, payloadArray_payloadArray, ← stringToBytes, bytesToString_stringToBytes]
  | object v =>
      obtain ⟨bytes, hbytes, hpair⟩ := bind_ok.mp hencode
      obtain ⟨rfl, rfl⟩ := Prod.mk.inj (Except.ok.inj hpair)
      refine ⟨by decide, rfl, ?_⟩
      show (c.breadFromBytes (payloadArray bytes) >>= fun v => Except.ok (Expr.object v)) = _
      rw [hc.bread_payloadArray hbytes]
      rfl

/-- **The client reads the response of the server.** -/
theorem Codec.Faithful.read_response (hc : c.Faithful) {expr : Expr ν} {encoding : UInt8}
    {payload : List UInt8} (hencode : c.encodeRequest expr = .ok (encoding, payload)) {result : ν}
    {enc : UInt8} {bytes : List UInt8}
    (hresult : c.encodeResult false encoding result = .ok (enc, bytes)) (msgId : BitVec (8 * 4)) :
    c.readResponse (sentMessage msgResponse enc msgId bytes) = .ok (c.answer expr result) := by
  cases expr with
  | text s =>
      obtain ⟨rfl, rfl⟩ := Prod.mk.inj (Except.ok.inj hencode)
      obtain ⟨rfl, rfl⟩ := Prod.mk.inj (Except.ok.inj hresult)
      show Except.ok (Expr.text (bytesToString (payloadArray (stringToBytes _)))) = _
      rw [stringToBytes, payloadArray_payloadArray, ← stringToBytes, bytesToString_stringToBytes]
      rfl
  | object v =>
      obtain ⟨bytes', hbytes', hpair⟩ := bind_ok.mp hencode
      obtain ⟨rfl, rfl⟩ := Prod.mk.inj (Except.ok.inj hpair)
      rw [Codec.encodeResult, if_pos rfl] at hresult
      obtain ⟨written, hwritten, hpair⟩ := bind_ok.mp hresult
      obtain ⟨rfl, rfl⟩ := Prod.mk.inj (Except.ok.inj hpair)
      show (c.breadFromBytes (payloadArray written) >>= fun v => Except.ok (Expr.object v)) = _
      rw [hc.bread_payloadArray hwritten]
      rfl

/-! ## What the server answers -/

/-- A message that is not to be answered. -/
theorem handleMessage_async (c : Codec ν) (h : Handlers σ ν) (server : σ) (fd : ℕ) {m : Message}
    (hm : m.msgType = msgAsync) :
    (∀ frame, (handleMessage c h server fd m).1 ≠ .ok (some frame)) ∧
      evaluation c h server fd m = [] := by
  have hne : m.msgType ≠ msgSync := by
    rw [hm]
    decide
  unfold handleMessage evaluation
  cases c.decodeRequest m with
  | error e => exact ⟨fun frame hframe => (nomatch hframe), rfl⟩
  | ok decoded =>
      obtain ⟨encoding, payload⟩ := decoded
      simp only [if_neg hne, if_pos hm, and_true]
      cases c.decodeExpr encoding payload with
      | error e => exact fun frame hframe => (nomatch hframe)
      | ok expr =>
          simp only
          rcases h.onAsync server fd expr encoding with ⟨result | result, server'⟩
          · exact fun frame hframe => (nomatch hframe)
          · exact fun frame hframe => (nomatch hframe)

/-- A message that is answered without an evaluation. -/
theorem evaluation_heartbeat (c : Codec ν) (h : Handlers σ ν) (server : σ) (fd : ℕ) {m : Message}
    (hm : m.msgType = msgHeartbeat) : evaluation c h server fd m = [] := by
  have hne : m.msgType ≠ msgSync := by
    rw [hm]
    decide
  unfold evaluation
  cases c.decodeRequest m with
  | error e => rfl
  | ok decoded => exact if_neg hne

/-- **The request of a call**: the server evaluates it, and its answer is the result. -/
theorem handleMessage_sync (hc : c.Faithful) (h : Handlers σ ν) (server : σ) (fd : ℕ)
    {expr : Expr ν} {encoding : UInt8} {payload : List UInt8}
    (hencode : c.encodeRequest expr = .ok (encoding, payload)) (msgId : BitVec (8 * 4)) :
    evaluation c h server fd (sentMessage msgSync encoding msgId payload) =
        [(msgId, expr, (h.onSync server fd expr encoding).1)] ∧
      ∀ frame, (handleMessage c h server fd (sentMessage msgSync encoding msgId payload)).1 =
          .ok (some frame) →
        ∃ result, (h.onSync server fd expr encoding).1 = some result ∧
          c.readResponse frame = .ok (c.answer expr result) := by
  obtain ⟨hplain, hdecode, hexpr⟩ := hc.decode_request hencode msgSync msgId
  have hsync : (sentMessage msgSync encoding msgId payload).msgType = msgSync := rfl
  constructor
  · unfold evaluation
    rw [hdecode]
    simp only
    rw [if_pos hsync, hexpr]
    rfl
  · intro frame hframe
    unfold handleMessage at hframe
    rw [hdecode] at hframe
    simp only at hframe
    rw [if_pos hsync, hexpr] at hframe
    simp only at hframe
    rcases hresult : h.onSync server fd expr encoding with ⟨_ | result, server'⟩
    · rw [hresult] at hframe
      cases hframe
    · rw [hresult] at hframe
      have hcompressed : decide ((sentMessage msgSync encoding msgId payload).encoding =
          encCompressed) = false := decide_eq_false hplain
      rw [hcompressed] at hframe
      simp only at hframe
      cases hbytes : c.encodeResult false encoding result with
      | error e =>
          rw [hbytes] at hframe
          cases hframe
      | ok pair =>
          obtain ⟨enc, bytes⟩ := pair
          rw [hbytes] at hframe
          obtain rfl := Option.some.inj (Except.ok.inj hframe)
          exact ⟨result, rfl, hc.read_response hencode hbytes msgId⟩

/-- The answer to a request that is evaluated. -/
theorem handleMessage_result (hc : c.Faithful) (h : Handlers σ ν) (server : σ) (fd : ℕ)
    {expr : Expr ν} {encoding : UInt8} {payload : List UInt8}
    (hencode : c.encodeRequest expr = .ok (encoding, payload)) (msgId : BitVec (8 * 4))
    {result : ν} (hresult : (h.onSync server fd expr encoding).1 = some result)
    {enc : UInt8} {bytes : List UInt8}
    (hbytes : c.encodeResult false encoding result = .ok (enc, bytes)) :
    (handleMessage c h server fd (sentMessage msgSync encoding msgId payload)).1 =
      .ok (some (sentMessage msgResponse enc msgId bytes)) := by
  obtain ⟨hplain, hdecode, hexpr⟩ := hc.decode_request hencode msgSync msgId
  have hsync : (sentMessage msgSync encoding msgId payload).msgType = msgSync := rfl
  have hcompressed : decide ((sentMessage msgSync encoding msgId payload).encoding =
      encCompressed) = false := decide_eq_false hplain
  unfold handleMessage
  rw [hdecode]
  simp only
  rw [if_pos hsync, hexpr]
  simp only
  rcases honSync : h.onSync server fd expr encoding with ⟨result', server'⟩
  rw [honSync] at hresult
  obtain rfl : result' = some result := hresult
  simp only [hcompressed, hbytes]
  rfl

/-! ## An example -/

/-- The objects `()` and `t`, as `bwrite`, `bread` and `sprintf` have them; nothing is
compressed. -/
def truthCodec : Codec Bool where
  bwrite v := some (if v then [0x9f, 0, 0, 0, 7, 0, 0, 1, 116] else [0x9f, 0, 0, 0, 3])
  bread bytes :=
    if bytes = [0x9f, 0, 0, 0, 7, 0, 0, 1, 116] then some true
    else if bytes = [0x9f, 0, 0, 0, 3] then some false
    else none
  print v := cstring (if v then [116] else [40, 41])
  lz4Compress _ := []
  lz4Decompress _ _ := none

/-- The default handlers on these objects, which evaluate to themselves. -/
def truthHandlers : Handlers Unit Bool where
  onSync _ _ expr _ := (match expr with
    | .text s => if s.bytes = [116] then some true else if s.bytes = [40, 41] then some false else none
    | .object v => some v, ())
  onAsync _ _ _ _ := (some false, ())

theorem truthCodec_faithful : truthCodec.Faithful := by
  intro v bytes hwrite
  cases v with
  | false =>
      obtain rfl := Option.some.inj hwrite
      decide
  | true =>
      obtain rfl := Option.some.inj hwrite
      decide

end Lush.Wire
