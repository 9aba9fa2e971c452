import Lush.Wire.Frame

/-!
# The non-blocking reader

The method `_try-read-client` of `wire.lsh`.  The reader of a client is in one of two phases,
with the bytes it has in its buffer; each receive gives it some of those that have arrived.
The bytes arrive in pieces, which need not be those that were sent; an empty piece is a receive
that finds nothing yet.

Whatever the pieces, the reader delivers what the stream holds, unless a header asks for a
negative number of bytes (`deliver_ok_iff`).
-/

namespace Lush.Wire

/-- The read state of a client. -/
structure ReadState where
  phase : ℕ
  buf : List UInt8
  offset : ℕ
  need : ℤ
  headerFields : Fields

/-- `_add-client`: the state of a new client. -/
def ReadState.initial : ReadState where
  phase := 0
  buf := List.replicate (headerSize + 65536) 0
  offset := 0
  need := headerSize
  headerFields := ⟨0, 0, 0, 0⟩

/-- What has arrived at a socket and was not received: its pieces, and whether the peer has
closed the connection. -/
structure Socket where
  pieces : List (List UInt8)
  eof : Bool

/-- `_wire-recv-nonblock`: what it returns, the buffer and the socket.  A receive outside of
the buffer has no meaning. -/
def recvNonblock (buf : List UInt8) (offset : ℕ) (maxlen : ℤ) (k : Socket) :
    Except Fault (ℤ × List UInt8 × Socket) :=
  if maxlen < 0 ∨ (buf.length : ℤ) < offset + maxlen then .error .undefined
  else
    match k.pieces with
    | [] => .ok (if k.eof then -1 else 0, buf, k)
    | piece :: pieces =>
        let got := min piece.length maxlen.toNat
        let buf := buf.take offset ++ piece.take got ++ buf.drop (offset + got)
        let pieces := if got = piece.length then pieces else piece.drop got :: pieces
        .ok (if maxlen = 0 then -1 else got, buf, { k with pieces := pieces })

/-- What a call of the reader returns. -/
inductive Outcome
  | partial_
  | disconnect
  | message (m : Message)

/-- The state that waits for a header. -/
def ReadState.restart (s : ReadState) : ReadState :=
  { s with phase := 0, offset := 0, need := headerSize }

/-- The phase of the header is complete. -/
def ReadState.header (s : ReadState) : Option Outcome × ReadState :=
  match parseHeader s.buf with
  | none => (some .disconnect, s)
  | some f =>
      let s := { s with headerFields := f }
      if f.payloadLen = 0 then (some (.message (f.message [])), s.restart)
      else
        let buf : List UInt8 :=
          if (s.buf.length : ℤ) < f.payloadLen then List.replicate f.payloadLen.toNat 0
          else s.buf
        (none, { s with buf := buf, phase := 1, offset := 0, need := f.payloadLen })

/-- The phase of the payload is complete. -/
def ReadState.body (s : ReadState) : Option Outcome × ReadState :=
  (some (.message (s.headerFields.message (s.buf.take s.headerFields.payloadLen.toNat))),
    s.restart)

/-- A round of the loop; without an outcome the loop goes on. -/
def readRound (s : ReadState) (k : Socket) :
    Except Fault (Option Outcome × ReadState × Socket) := do
  let (got, buf, k) ← recvNonblock s.buf s.offset (s.need - s.offset) k
  if got < 0 then return (some .disconnect, s, k)
  if got = 0 then return (some .partial_, s, k)
  let s : ReadState := { s with buf := buf, offset := s.offset + got.toNat }
  if (s.offset : ℤ) < s.need then return (some .partial_, s, k)
  match s.phase with
  | 0 => return (s.header.1, s.header.2, k)
  | 1 => return (s.body.1, s.body.2, k)
  | _ => return (some .disconnect, s, k)

/-- The loop. -/
def readLoop : ℕ → ReadState → Socket → Except Fault (Outcome × ReadState × Socket)
  | 0, _, _ => .error .depth
  | rounds + 1, s, k => do
      let (outcome, s, k) ← readRound s k
      match outcome with
      | some outcome => return (outcome, s, k)
      | none => readLoop rounds s k

/-- `_try-read-client`.  There is at most one round for the header and one for the payload. -/
def tryReadClient (s : ReadState) (k : Socket) : Except Fault (Outcome × ReadState × Socket) :=
  readLoop 2 s k

/-- What the calls of the reader deliver, as long as the socket is ready. -/
def deliver : ℕ → ReadState → Socket → Except Fault (List Delivery)
  | 0, _, _ => .error .depth
  | calls + 1, s, k =>
      if k.pieces = [] ∧ k.eof = false then .ok []
      else do
        let (outcome, s, k) ← tryReadClient s k
        match outcome with
        | .partial_ => deliver calls s k
        | .disconnect => return [.disconnect]
        | .message m => return .message m :: (← deliver calls s k)

/-! ## The states between two calls -/

/-- The reader waits for the rest of a header; it has the bytes `pending`. -/
structure ReadState.HoldsHeader (s : ReadState) (pending : List UInt8) : Prop where
  phase : s.phase = 0
  need : s.need = headerSize
  offset : s.offset < headerSize
  large : headerSize ≤ s.buf.length
  pending : pending = s.buf.take s.offset

/-- The reader waits for the rest of a payload; it has the bytes `pending`, with the header. -/
structure ReadState.HoldsPayload (s : ReadState) (pending : List UInt8) : Prop where
  phase : s.phase = 1
  need : s.need = s.headerFields.payloadLen
  offset : (s.offset : ℤ) < s.need
  room : s.need ≤ s.buf.length
  large : headerSize ≤ s.buf.length
  pending : ∃ header : List UInt8, header.length = headerSize ∧
    parseHeader header = some s.headerFields ∧ pending = header ++ s.buf.take s.offset

/-- The reader waits, and `pending` are the bytes since the last message. -/
def ReadState.Holds (s : ReadState) (pending : List UInt8) : Prop :=
  s.HoldsHeader pending ∨ s.HoldsPayload pending

/-- How many receives a socket is good for. -/
def Socket.size (k : Socket) : ℕ := k.pieces.flatten.length + k.pieces.length

/-- The bytes `taken` are received from the socket `k`. -/
structure Receives (k : Socket) (taken : List UInt8) (k' : Socket) : Prop where
  bytes : taken ++ k'.pieces.flatten = k.pieces.flatten
  eof : k'.eof = k.eof
  size : k'.size < k.size
  length : k'.pieces.length ≤ k.pieces.length

/-- What a round makes of the bytes that have arrived since the last message. -/
inductive Advance (eof : Bool) (arrived : List UInt8) : Option Outcome → ReadState → Prop
  | partial_ {s : ReadState} (holds : s.Holds arrived) : Advance eof arrived (some .partial_) s
  | disconnect {s : ReadState} (length : arrived.length = headerSize)
      (parse : parseHeader arrived = none) : Advance eof arrived (some .disconnect) s
  | message {s : ReadState} {m : Message} (holds : s.Holds [])
      (deliveries : ∀ rest, deliveries eof (arrived ++ rest) = .message m :: deliveries eof rest)
      (fit : ∀ rest, lengthsFit (arrived ++ rest) = lengthsFit rest) :
      Advance eof arrived (some (.message m)) s
  | payload {s : ReadState} (holds : s.HoldsPayload arrived) : Advance eof arrived none s
  | negative {s : ReadState} {f : Fields} (length : arrived.length = headerSize)
      (parse : parseHeader arrived = some f) (negative : f.payloadLen < 0)
      (offset : s.offset = 0) (need : s.need < 0) : Advance eof arrived none s

variable {s : ReadState} {k : Socket} {eof : Bool} {pending : List UInt8}

theorem ReadState.restart_holds (s : ReadState) (hlarge : headerSize ≤ s.buf.length) :
    s.restart.Holds [] := by
  have hoffset : 0 < headerSize := by decide
  left
  exact ⟨rfl, rfl, hoffset, hlarge, rfl⟩

theorem ReadState.initial_holds : ReadState.initial.Holds [] := by
  have hoffset : 0 < headerSize := by decide
  left
  refine ⟨rfl, rfl, hoffset, ?_, rfl⟩
  simp only [ReadState.initial, List.length_replicate]
  omega

theorem ReadState.HoldsHeader.length (h : s.HoldsHeader pending) : pending.length = s.offset := by
  have hoffset : s.offset < headerSize := h.offset
  have hlarge : headerSize ≤ s.buf.length := h.large
  rw [h.pending, List.length_take, min_eq_left (by omega)]

/-- What the reader holds is no message yet. -/
theorem ReadState.Holds.incomplete (h : s.Holds pending) (eof : Bool) :
    deliveries eof pending = ending eof ∧ lengthsFit pending = true := by
  rcases h with h | h
  · have hshort : pending.length < headerSize := by
      rw [h.length]
      exact h.offset
    exact ⟨deliveries_short hshort, lengthsFit_short hshort⟩
  · obtain ⟨header, hlength, hparse, hpending⟩ := h.pending
    have hoffset : (s.offset : ℤ) < s.need := h.offset
    have hneed : s.need = s.headerFields.payloadLen := h.need
    have hroom : s.need ≤ s.buf.length := h.room
    have hparse' : parseHeader pending = some s.headerFields := by
      rw [hpending, parseHeader_append hlength, hparse]
    have hlen : pending.length = headerSize + s.offset := by
      rw [hpending, List.length_append, hlength, List.length_take, min_eq_left (by omega)]
    exact ⟨deliveries_incomplete (by omega) hparse' (by omega),
      lengthsFit_incomplete (by omega) hparse' (by omega) (by omega)⟩

/-! ## A receive -/

/-- What a receive within the buffer does to the buffer and the socket. -/
theorem recvNonblock_cons (eof : Bool) (piece : List UInt8) (pieces : List (List UInt8))
    {buf : List UInt8} {offset : ℕ} {maxlen : ℤ} (hpos : 0 < maxlen) (hroom : offset + maxlen ≤ buf.length) :
    ∃ (got : ℕ) (buf' : List UInt8) (k' : Socket) (taken : List UInt8),
      recvNonblock buf offset maxlen ⟨piece :: pieces, eof⟩ = .ok ((got : ℤ), buf', k') ∧
      (got : ℤ) ≤ maxlen ∧ buf'.length = buf.length ∧ taken.length = got ∧
      buf'.take (offset + got) = buf.take offset ++ taken ∧
      Receives ⟨piece :: pieces, eof⟩ taken k' ∧ (k'.pieces = pieces ∨ (got : ℤ) = maxlen) := by
  -- the whole piece, or what there is room for
  let got := min piece.length maxlen.toNat
  have hgot : (got : ℤ) ≤ maxlen := by omega
  have htake : (piece.take got).length = got := by
    rw [List.length_take]
    omega
  have hoffset : (buf.take offset).length = offset := by
    rw [List.length_take]
    omega
  refine ⟨got, buf.take offset ++ piece.take got ++ buf.drop (offset + got),
    ⟨if got = piece.length then pieces else piece.drop got :: pieces, eof⟩, piece.take got,
    ?_, hgot, ?_, htake, ?_, ?_, ?_⟩
  · unfold recvNonblock
    rw [if_neg (by omega)]
    simp only
    rw [if_neg (by omega)]
  · rw [List.length_append, List.length_append, hoffset, htake, List.length_drop]
    omega
  · apply List.take_left'
    rw [List.length_append, hoffset, htake]
  · by_cases hall : got = piece.length
    · have htaken : piece.take got = piece := by rw [hall, List.take_length]
      refine ⟨?_, rfl, ?_, ?_⟩
      · simp only [hall, if_true, List.take_length, List.flatten_cons]
      · simp only [Socket.size, hall, if_true, List.flatten_cons, List.length_append,
          List.length_cons]
        omega
      · simp only [hall, if_true, List.length_cons]
        omega
    · refine ⟨?_, rfl, ?_, ?_⟩
      · simp only [if_neg hall, List.flatten_cons]
        rw [← List.append_assoc, List.take_append_drop]
      · simp only [Socket.size, if_neg hall, List.flatten_cons, List.length_append,
          List.length_cons, List.length_drop]
        omega
      · simp only [if_neg hall, List.length_cons]
        omega
  · by_cases hall : got = piece.length
    · left
      simp only [hall, if_true]
    · right
      omega

/-- A receive from an empty socket. -/
theorem readRound_nil (eof : Bool) (hpos : (s.offset : ℤ) < s.need) (hroom : s.need ≤ s.buf.length) :
    readRound s ⟨[], eof⟩ =
      .ok (some (if eof then .disconnect else .partial_), s, ⟨[], eof⟩) := by
  unfold readRound recvNonblock
  rw [if_neg (by omega)]
  cases eof <;> rfl

/-- A receive of a negative length is no receive. -/
theorem readRound_negative (hoffset : s.offset = 0) (hneed : s.need < 0) :
    readRound s k = .error .undefined := by
  unfold readRound recvNonblock
  rw [if_pos (by omega)]
  rfl

/-! ## A round -/

/-- What is left of a round after its receive. -/
theorem readRound_received {got : ℕ} {buf : List UInt8} {k' : Socket}
    (hrecv : recvNonblock s.buf s.offset (s.need - s.offset) k = .ok ((got : ℤ), buf, k')) :
    readRound s k =
      if got = 0 then .ok (some .partial_, s, k')
      else
        let s' : ReadState := { s with buf := buf, offset := s.offset + got }
        if (s'.offset : ℤ) < s'.need then .ok (some .partial_, s', k')
        else
          match s'.phase with
          | 0 => .ok (s'.header.1, s'.header.2, k')
          | 1 => .ok (s'.body.1, s'.body.2, k')
          | _ => .ok (some .disconnect, s', k') := by
  unfold readRound
  rw [hrecv]
  have hnonneg : ¬(got : ℤ) < 0 := by omega
  simp only [bind, Except.bind, if_neg hnonneg, Int.natCast_eq_zero, Int.toNat_natCast]
  split_ifs <;> rfl

/-- **The header is complete.** -/
theorem ReadState.header_advance {s : ReadState} (hoffset : s.offset = headerSize)
    (hlarge : headerSize ≤ s.buf.length) (eof : Bool) :
    Advance eof (s.buf.take s.offset) s.header.1 s.header.2 := by
  have hlen : (s.buf.take s.offset).length = headerSize := by
    rw [List.length_take]
    omega
  have hbuf : parseHeader (s.buf.take s.offset) = parseHeader s.buf := by
    rw [← parseHeader_append hlen (s.buf.drop s.offset), List.take_append_drop]
  cases hparse : parseHeader s.buf with
  | none =>
      simp only [ReadState.header, hparse]
      exact .disconnect hlen (hbuf.trans hparse)
  | some f =>
      have hheader : parseHeader (s.buf.take s.offset) = some f := hbuf.trans hparse
      by_cases hzero : f.payloadLen = 0
      · -- an empty payload
        have hstream (rest : List UInt8) : parseHeader (s.buf.take s.offset ++ rest) = some f := by
          rw [parseHeader_append hlen, hheader]
        have hbytes (rest : List UInt8) :
            headerSize + f.payloadLen.toNat ≤ (s.buf.take s.offset ++ rest).length := by
          rw [List.length_append]
          omega
        have hdrop (rest : List UInt8) :
            (s.buf.take s.offset ++ rest).drop (headerSize + f.payloadLen.toNat) = rest := by
          rw [hzero]
          exact List.drop_left' hlen
        simp only [ReadState.header, hparse, if_pos hzero]
        apply Advance.message
        · exact ReadState.restart_holds _ hlarge
        · intro rest
          rw [deliveries_frame (hstream rest) (hbytes rest), hdrop, hzero]
          rfl
        · intro rest
          rw [lengthsFit_frame (hstream rest) (by omega) (hbytes rest), hdrop]
      · simp only [ReadState.header, hparse, if_neg hzero]
        by_cases hneg : f.payloadLen < 0
        · exact .negative hlen hheader hneg rfl hneg
        · -- the buffer is replaced by one that is large enough
          apply Advance.payload
          refine ⟨rfl, rfl, ?_, ?_, ?_, _, hlen, hheader, ?_⟩
          · show ((0 : ℕ) : ℤ) < f.payloadLen
            omega
          · show f.payloadLen ≤ _
            split_ifs with hgrow
            · rw [List.length_replicate]
              omega
            · exact not_lt.mp hgrow
          · show headerSize ≤ _
            split_ifs with hgrow
            · rw [List.length_replicate]
              omega
            · exact hlarge
          · exact (List.append_nil _).symm

theorem ReadState.header_ne_partial (s : ReadState) : s.header.1 ≠ some .partial_ := by
  unfold ReadState.header
  cases parseHeader s.buf with
  | none => exact fun heq => (nomatch heq)
  | some f =>
      by_cases hzero : f.payloadLen = 0
      · simp only [if_pos hzero]
        exact fun heq => (nomatch heq)
      · simp only [if_neg hzero]
        exact fun heq => (nomatch heq)

/-- **The payload is complete.** -/
theorem ReadState.body_advance {s : ReadState} {header : List UInt8}
    (hlen : header.length = headerSize) (hparse : parseHeader header = some s.headerFields)
    (hoffset : s.headerFields.payloadLen = s.offset) (hroom : s.offset ≤ s.buf.length)
    (hlarge : headerSize ≤ s.buf.length) (eof : Bool) :
    Advance eof (header ++ s.buf.take s.offset) s.body.1 s.body.2 := by
  have htake : (s.buf.take s.offset).length = s.offset := by
    rw [List.length_take]
    omega
  have htoNat : s.headerFields.payloadLen.toNat = s.offset := by omega
  have hstream (rest : List UInt8) :
      parseHeader (header ++ s.buf.take s.offset ++ rest) = some s.headerFields := by
    rw [List.append_assoc, parseHeader_append hlen, hparse]
  have hbytes (rest : List UInt8) : headerSize + s.headerFields.payloadLen.toNat ≤
      (header ++ s.buf.take s.offset ++ rest).length := by
    rw [List.length_append, List.length_append, hlen, htake]
    omega
  have hdrop (rest : List UInt8) : (header ++ s.buf.take s.offset ++ rest).drop
      (headerSize + s.headerFields.payloadLen.toNat) = rest := by
    apply List.drop_left'
    rw [List.length_append, hlen, htake, htoNat]
  have hpayload (rest : List UInt8) : ((header ++ s.buf.take s.offset ++ rest).drop
      headerSize).take s.headerFields.payloadLen.toNat = s.buf.take s.offset := by
    rw [List.append_assoc, List.drop_left' hlen, htoNat]
    exact List.take_left' htake
  apply Advance.message
  · exact ReadState.restart_holds _ hlarge
  · intro rest
    rw [deliveries_frame (hstream rest) (hbytes rest), hpayload, hdrop, htoNat]
  · intro rest
    rw [lengthsFit_frame (hstream rest) (by omega) (hbytes rest), hdrop]

/-- **A round that waits for a header.** -/
theorem readRound_header (h : s.HoldsHeader pending) (piece : List UInt8)
    (pieces : List (List UInt8)) (eof : Bool) :
    ∃ outcome s' k' taken, readRound s ⟨piece :: pieces, eof⟩ = .ok (outcome, s', k') ∧
      Receives ⟨piece :: pieces, eof⟩ taken k' ∧ Advance eof (pending ++ taken) outcome s' ∧
      (outcome = some .partial_ → k'.pieces = pieces) := by
  have hoffset : s.offset < headerSize := h.offset
  have hneed : s.need = headerSize := h.need
  have hlarge : headerSize ≤ s.buf.length := h.large
  obtain ⟨got, buf, k', taken, hrecv, hgot, hbuf, htaken, htake, hreceives, hrest⟩ :=
    recvNonblock_cons eof piece pieces (show 0 < s.need - s.offset by omega)
      (show s.offset + (s.need - s.offset) ≤ s.buf.length by omega)
  have hround := readRound_received hrecv
  have harrived : pending ++ taken = buf.take (s.offset + got) := by rw [h.pending, htake]
  have hall (hless : (got : ℤ) < s.need - s.offset) : k'.pieces = pieces :=
    hrest.resolve_right (fun heq => absurd heq (by omega))
  by_cases hnothing : got = 0
  · rw [if_pos hnothing] at hround
    have htaken : taken = [] := List.length_eq_zero_iff.mp (htaken.trans hnothing)
    refine ⟨_, _, _, taken, hround, hreceives, ?_, fun _ => hall (by omega)⟩
    rw [htaken, List.append_nil]
    exact .partial_ (.inl h)
  · rw [if_neg hnothing] at hround
    simp only [h.phase] at hround
    by_cases hpartial : ((s.offset + got : ℕ) : ℤ) < s.need
    · rw [if_pos hpartial] at hround
      refine ⟨_, _, _, taken, hround, hreceives, .partial_ (.inl ⟨rfl, hneed, ?_, ?_, harrived⟩),
        fun _ => hall (by omega)⟩
      · show s.offset + got < headerSize
        omega
      · exact hbuf ▸ hlarge
    · rw [if_neg hpartial] at hround
      refine ⟨_, _, _, taken, hround, hreceives, ?_,
        fun hpartial => absurd hpartial (ReadState.header_ne_partial _)⟩
      rw [harrived]
      apply ReadState.header_advance
        (s := { s with phase := 0, buf := buf, offset := s.offset + got })
      · show s.offset + got = headerSize
        omega
      · exact hbuf ▸ hlarge

/-- **A round that waits for a payload.** -/
theorem readRound_payload (h : s.HoldsPayload pending) (piece : List UInt8)
    (pieces : List (List UInt8)) (eof : Bool) :
    ∃ outcome s' k' taken, readRound s ⟨piece :: pieces, eof⟩ = .ok (some outcome, s', k') ∧
      Receives ⟨piece :: pieces, eof⟩ taken k' ∧
      Advance eof (pending ++ taken) (some outcome) s' ∧
      (outcome = .partial_ → k'.pieces = pieces) := by
  obtain ⟨header, hlen, hparse, hpending⟩ := h.pending
  have hoffset : (s.offset : ℤ) < s.need := h.offset
  have hneed : s.need = s.headerFields.payloadLen := h.need
  have hroom : s.need ≤ s.buf.length := h.room
  have hlarge : headerSize ≤ s.buf.length := h.large
  obtain ⟨got, buf, k', taken, hrecv, hgot, hbuf, htaken, htake, hreceives, hrest⟩ :=
    recvNonblock_cons eof piece pieces (show 0 < s.need - s.offset by omega)
      (show s.offset + (s.need - s.offset) ≤ s.buf.length by omega)
  have hround := readRound_received hrecv
  have harrived : pending ++ taken = header ++ buf.take (s.offset + got) := by
    rw [hpending, List.append_assoc, htake]
  have hall (hless : (got : ℤ) < s.need - s.offset) : k'.pieces = pieces :=
    hrest.resolve_right (fun heq => absurd heq (by omega))
  by_cases hnothing : got = 0
  · rw [if_pos hnothing] at hround
    have htaken : taken = [] := List.length_eq_zero_iff.mp (htaken.trans hnothing)
    refine ⟨_, _, _, taken, hround, hreceives, ?_, fun _ => hall (by omega)⟩
    rw [htaken, List.append_nil]
    exact .partial_ (.inr h)
  · rw [if_neg hnothing] at hround
    simp only [h.phase] at hround
    by_cases hpartial : ((s.offset + got : ℕ) : ℤ) < s.need
    · rw [if_pos hpartial] at hround
      refine ⟨_, _, _, taken, hround, hreceives, .partial_ (.inr ?_), fun _ => hall (by omega)⟩
      exact ⟨rfl, hneed, hpartial, hbuf ▸ hroom, hbuf ▸ hlarge, header, hlen, hparse, harrived⟩
    · rw [if_neg hpartial] at hround
      refine ⟨_, _, _, taken, hround, hreceives, ?_, fun hpartial => (nomatch hpartial)⟩
      rw [harrived]
      apply ReadState.body_advance
        (s := { s with phase := 1, buf := buf, offset := s.offset + got }) hlen hparse
      · show s.headerFields.payloadLen = ((s.offset + got : ℕ) : ℤ)
        omega
      · show s.offset + got ≤ buf.length
        omega
      · exact hbuf ▸ hlarge

/-! ## A call -/

/-- What a call makes of a stream: the bytes it holds and those at the socket.  Less than `bound`
is left. -/
inductive Delivers (pending : List UInt8) (k : Socket) (bound : ℕ) :
    Except Fault (Outcome × ReadState × Socket) → Prop
  | fault (fit : lengthsFit (pending ++ k.pieces.flatten) = false) :
      Delivers pending k bound (.error .undefined)
  | partial_ {s' : ReadState} {k' : Socket} {pending' : List UInt8} (holds : s'.Holds pending')
      (stream : pending' ++ k'.pieces.flatten = pending ++ k.pieces.flatten)
      (eof : k'.eof = k.eof) (size : k'.size < bound)
      (all : k.pieces.length ≤ 1 → k'.pieces = []) :
      Delivers pending k bound (.ok (.partial_, s', k'))
  | disconnect {s' : ReadState} {k' : Socket}
      (deliveries : deliveries k.eof (pending ++ k.pieces.flatten) = [.disconnect])
      (fit : lengthsFit (pending ++ k.pieces.flatten) = true) :
      Delivers pending k bound (.ok (.disconnect, s', k'))
  | message {s' : ReadState} {k' : Socket} {m : Message} (holds : s'.Holds [])
      (deliveries : deliveries k.eof (pending ++ k.pieces.flatten) =
        .message m :: deliveries k.eof k'.pieces.flatten)
      (fit : lengthsFit (pending ++ k.pieces.flatten) = lengthsFit k'.pieces.flatten)
      (eof : k'.eof = k.eof) (size : k'.size < bound)
      (length : k'.pieces.length ≤ k.pieces.length) :
      Delivers pending k bound (.ok (.message m, s', k'))

theorem Receives.stream {k k' : Socket} {taken : List UInt8} (h : Receives k taken k')
    (pending : List UInt8) :
    pending ++ taken ++ k'.pieces.flatten = pending ++ k.pieces.flatten := by
  rw [List.append_assoc, h.bytes]

theorem Delivers.mono {bound bound' : ℕ} {r : Except Fault (Outcome × ReadState × Socket)}
    (h : Delivers pending k bound r) (hle : bound ≤ bound') : Delivers pending k bound' r := by
  cases h with
  | fault fit => exact .fault fit
  | partial_ holds stream eof size all => exact .partial_ holds stream eof (size.trans_le hle) all
  | disconnect deliveries fit => exact .disconnect deliveries fit
  | message holds deliveries fit eof size length =>
      exact .message holds deliveries fit eof (size.trans_le hle) length

/-- A round with an outcome. -/
theorem Advance.delivers {k k' : Socket} {taken : List UInt8} {outcome : Outcome} {s' : ReadState}
    (hreceives : Receives k taken k')
    (hadvance : Advance k.eof (pending ++ taken) (some outcome) s')
    (hall : outcome = .partial_ → k.pieces.length ≤ 1 → k'.pieces = []) :
    Delivers pending k k.size (.ok (outcome, s', k')) := by
  have hstream := hreceives.stream pending
  cases hadvance with
  | partial_ holds => exact .partial_ holds hstream hreceives.eof hreceives.size (hall rfl)
  | disconnect length parse =>
      have hlen : headerSize ≤ (pending ++ k.pieces.flatten).length := by
        rw [← hstream, List.length_append]
        omega
      have hparse : parseHeader (pending ++ k.pieces.flatten) = none := by
        rw [← hstream, parseHeader_append length, parse]
      exact .disconnect (deliveries_bad hlen hparse) (lengthsFit_bad hlen hparse)
  | message holds deliveries fit =>
      refine .message holds ?_ ?_ hreceives.eof hreceives.size hreceives.length
      · rw [← hstream, deliveries]
      · rw [← hstream, fit]

/-- A call that begins later in the stream. -/
theorem Delivers.before {k k' : Socket} {taken : List UInt8}
    {r : Except Fault (Outcome × ReadState × Socket)} (hreceives : Receives k taken k')
    (h : Delivers (pending ++ taken) k' (k'.size + 1) r) : Delivers pending k k.size r := by
  have hstream := hreceives.stream pending
  have heof := hreceives.eof
  have hsize : k'.size + 1 ≤ k.size := hreceives.size
  cases h with
  | fault fit => exact .fault (hstream ▸ fit)
  | partial_ holds stream eof size all =>
      exact .partial_ holds (stream.trans hstream) (eof.trans heof) (size.trans_le hsize)
        (fun hone => all (hreceives.length.trans hone))
  | disconnect deliveries fit =>
      rw [hstream] at deliveries fit
      exact .disconnect (heof ▸ deliveries) fit
  | message holds deliveries fit eof size length =>
      rw [hstream] at deliveries fit
      exact .message holds (heof ▸ deliveries) fit (eof.trans heof) (size.trans_le hsize)
        (length.trans hreceives.length)

/-- **A call of the reader** delivers what its stream begins with. -/
theorem tryReadClient_delivers (h : s.Holds pending) (hready : k.pieces ≠ [] ∨ k.eof = true) :
    Delivers pending k k.size (tryReadClient s k) := by
  obtain ⟨pieces, eof⟩ := k
  cases pieces with
  | nil =>
      -- the peer has closed the connection
      have heof : eof = true := hready.resolve_left (fun hne => hne rfl)
      subst heof
      have hround : readRound s ⟨[], true⟩ = .ok (some .disconnect, s, ⟨[], true⟩) := by
        rcases h with h | h
        · have hneed : s.need = headerSize := h.need
          have hoffset : s.offset < headerSize := h.offset
          have hlarge : headerSize ≤ s.buf.length := h.large
          exact readRound_nil true (by omega) (by omega)
        · exact readRound_nil true h.offset h.room
      have hincomplete := h.incomplete true
      rw [tryReadClient, readLoop, hround]
      apply Delivers.disconnect
      · simpa [ending] using hincomplete.1
      · simpa using hincomplete.2
  | cons piece pieces =>
      rcases h with h | h
      · obtain ⟨outcome, s', k', taken, hround, hreceives, hadvance, hrest⟩ :=
          readRound_header h piece pieces eof
        have heof : k'.eof = eof := hreceives.eof
        rw [tryReadClient, readLoop, hround]
        cases outcome with
        | some outcome =>
            apply hadvance.delivers hreceives
            intro hpartial hone
            exact (hrest (congrArg some hpartial)).trans (List.length_eq_zero_iff.mp (by
              simpa using hone))
        | none =>
            -- the loop goes on with the payload
            apply Delivers.before hreceives
            show Delivers (pending ++ taken) k' (k'.size + 1) (readLoop 1 s' k')
            cases hadvance with
            | negative length parse negative offset need =>
                rw [readLoop, readRound_negative offset need]
                apply Delivers.fault
                apply lengthsFit_negative _ _ negative
                · rw [List.length_append]
                  omega
                · rw [parseHeader_append length, parse]
            | payload holds =>
                obtain ⟨pieces', eof'⟩ := k'
                cases pieces' with
                | nil =>
                    have hround := readRound_nil eof' holds.offset holds.room
                    have hincomplete := ReadState.Holds.incomplete (.inr holds) eof'
                    rw [readLoop, hround]
                    cases eof' with
                    | true =>
                        apply Delivers.disconnect
                        · simpa [ending] using hincomplete.1
                        · simpa using hincomplete.2
                    | false => exact .partial_ (.inr holds) rfl rfl (Nat.lt_succ_self _) (fun _ => rfl)
                | cons piece' pieces' =>
                    obtain ⟨outcome, s'', k'', taken', hround, hreceives2, hadvance2, hrest2⟩ :=
                      readRound_payload holds piece' pieces' eof'
                    rw [readLoop, hround]
                    refine (hadvance2.delivers hreceives2 ?_).mono (Nat.le_succ _)
                    intro hpartial hone
                    exact (hrest2 hpartial).trans (List.length_eq_zero_iff.mp (by
                      simpa using hone))
      · obtain ⟨outcome, s', k', taken, hround, hreceives, hadvance, hrest⟩ :=
          readRound_payload h piece pieces eof
        rw [tryReadClient, readLoop, hround]
        apply hadvance.delivers hreceives
        intro hpartial hone
        exact (hrest hpartial).trans (List.length_eq_zero_iff.mp (by simpa using hone))

/-- A socket at which nothing has arrived. -/
theorem tryReadClient_nil {s : ReadState} {pending : List UInt8} (hs : s.Holds pending) :
    tryReadClient s ⟨[], false⟩ = .ok (.partial_, s, ⟨[], false⟩) := by
  have hround : readRound s ⟨[], false⟩ = .ok (some .partial_, s, ⟨[], false⟩) := by
    rcases hs with hs | hs
    · have hneed : s.need = headerSize := hs.need
      have hoffset : s.offset < headerSize := hs.offset
      have hlarge : headerSize ≤ s.buf.length := hs.large
      exact readRound_nil false (by omega) (by omega)
    · exact readRound_nil false hs.offset hs.room
  rw [tryReadClient, readLoop, hround]
  rfl

/-- The reader waits again after a call that does not end the connection. -/
theorem tryReadClient_holds {s : ReadState} {pending : List UInt8} (hs : s.Holds pending)
    {k : Socket} {outcome : Outcome} {s' : ReadState} {k' : Socket}
    (hread : tryReadClient s k = .ok (outcome, s', k')) (hopen : outcome ≠ .disconnect) :
    ∃ pending', s'.Holds pending' := by
  obtain ⟨pieces, eof⟩ := k
  by_cases hready : pieces ≠ [] ∨ eof = true
  · have hcall := tryReadClient_delivers (k := ⟨pieces, eof⟩) hs hready
    rw [hread] at hcall
    cases hcall with
    | partial_ holds => exact ⟨_, holds⟩
    | disconnect => exact absurd rfl hopen
    | message holds => exact ⟨_, holds⟩
  · push Not at hready
    obtain ⟨rfl, heof⟩ := hready
    obtain rfl : eof = false := Bool.not_eq_true _ ▸ heof
    rw [tryReadClient_nil hs] at hread
    obtain ⟨-, hrest⟩ := Prod.mk.inj (Except.ok.inj hread)
    obtain ⟨rfl, -⟩ := Prod.mk.inj hrest
    exact ⟨pending, hs⟩

/-! ## The calls -/

/-- **The calls of the reader** deliver what the stream holds, or make a receive of a negative
length. -/
theorem deliver_eq (calls : ℕ) (s : ReadState) (k : Socket) (pending : List UInt8)
    (h : s.Holds pending) (hcalls : k.size < calls) :
    deliver calls s k =
      if lengthsFit (pending ++ k.pieces.flatten) then
        .ok (deliveries k.eof (pending ++ k.pieces.flatten))
      else .error .undefined := by
  induction calls generalizing s k pending with
  | zero => omega
  | succ calls ih =>
      rw [deliver]
      by_cases hdone : k.pieces = [] ∧ k.eof = false
      · have hincomplete := h.incomplete k.eof
        rw [if_pos hdone, hdone.1, List.flatten_nil, List.append_nil, if_pos hincomplete.2,
          hincomplete.1, hdone.2]
        rfl
      · have hready : k.pieces ≠ [] ∨ k.eof = true := by
          by_contra hnot
          push Not at hnot
          exact hdone ⟨hnot.1, Bool.not_eq_true _ ▸ hnot.2⟩
        have hcall := tryReadClient_delivers h hready
        rw [if_neg hdone]
        cases hresult : tryReadClient s k with
        | error e =>
            rw [hresult] at hcall
            cases hcall with
            | fault fit =>
                rw [fit]
                rfl
        | ok result =>
            obtain ⟨outcome, s', k'⟩ := result
            rw [hresult] at hcall
            cases hcall with
            | partial_ holds stream eof size all =>
                have hrest := ih s' k' _ holds (by omega)
                rw [stream, eof] at hrest
                exact hrest
            | disconnect deliveries fit =>
                rw [fit, deliveries]
                rfl
            | message holds deliveries fit eof size length =>
                have hrest := ih s' k' [] holds (by omega)
                rw [List.nil_append, eof] at hrest
                show (deliver calls s' k' >>= fun rest => _) = _
                rw [hrest, fit, deliveries]
                split_ifs <;> rfl

/-- **However the stream is cut, the reader delivers what it holds**, with every receive inside
its buffer, exactly if no header asks for a negative number of bytes; frames are delivered as
they were built, and a bad magic disconnects. -/
theorem deliver_ok_iff (pieces : List (List UInt8)) (eof : Bool) :
    (deliver (pieces.flatten.length + pieces.length + 1) .initial ⟨pieces, eof⟩ =
        .ok (deliveries eof pieces.flatten) ↔ lengthsFit pieces.flatten = true) ∧
      (∀ (frames : List Frame) (rest : List UInt8),
        deliveries eof (frames.flatMap Frame.bytes ++ rest) =
            frames.map (fun f => .message f.message) ++ deliveries eof rest ∧
          lengthsFit (frames.flatMap Frame.bytes ++ rest) = lengthsFit rest) ∧
      (∀ stream : List UInt8, headerSize ≤ stream.length → stream.take 4 ≠ magic →
        deliveries eof stream = [.disconnect] ∧ lengthsFit stream = true) := by
  refine ⟨?_, deliveries_frames eof, ?_⟩
  · have hrun := deliver_eq (pieces.flatten.length + pieces.length + 1) .initial ⟨pieces, eof⟩ []
      ReadState.initial_holds (Nat.lt_succ_self _)
    rw [List.nil_append] at hrun
    rw [hrun]
    split_ifs with hfit
    · exact ⟨fun _ => hfit, fun _ => rfl⟩
    · constructor
      · intro herror
        cases herror
      · intro htrue
        exact absurd htrue hfit
  · intro stream hlen hmagic
    have hparse : parseHeader stream = none := if_neg hmagic
    exact ⟨deliveries_bad hlen hparse, lengthsFit_bad hlen hparse⟩

/-- A header alone, of a payload that is longer than an int can say. -/
def longHeader : List UInt8 := buildHeader 1 1 0 (BitVec.ofNat _ (2 ^ 32 - 1))

/-- Such a header makes the reader receive outside of its buffer. -/
theorem deliver_longHeader :
    deliver 18 .initial ⟨[longHeader], false⟩ ≠ .ok (deliveries false longHeader) := by
  have hparse : parseHeader longHeader = some ⟨1, 1, 0, -1⟩ := by
    have hlength : (BitVec.ofNat (8 * 4) (2 ^ 32 - 1)).toInt = -1 := by decide
    rw [longHeader, ← List.append_nil (buildHeader ..), parseHeader_buildHeader, hlength]
  have hfit : lengthsFit longHeader = false :=
    lengthsFit_negative (by decide) hparse (by decide)
  have hrun := deliver_eq 18 .initial ⟨[longHeader], false⟩ [] ReadState.initial_holds (by decide)
  rw [List.nil_append, List.flatten_cons, List.flatten_nil, List.append_nil, hfit] at hrun
  rw [hrun]
  intro herror
  cases herror

end Lush.Wire
