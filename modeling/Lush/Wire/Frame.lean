import Lush.Basic
import Lush.Library.Words

/-!
# Frames on the wire

The headers of `wire.lsh`: a frame is a header of sixteen bytes, with the length of the
payload, and the payload.  A stream of frames is read from its front (`deliveries`), until the
bytes end within a frame or a header is none.  At the end of a stream that the peer has closed
the client is disconnected.

The length is written as an unsigned word and read as a signed one, so that a header may ask
for a negative number of bytes (`lengthsFit`).
-/

namespace Lush.Wire

open Words

/-- `*wire-header-size*`. -/
def headerSize : ℕ := 16

/-- "LWIR". -/
def magic : List UInt8 := [0x4C, 0x57, 0x49, 0x52]

/-- What `_wire-parse-header` finds. -/
structure Fields where
  msgType : UInt8
  encoding : UInt8
  msgId : BitVec (8 * 4)
  payloadLen : ℤ

/-- `_wire-build-header`. -/
def buildHeader (msgType encoding : UInt8) (msgId payloadLen : BitVec (8 * 4)) : List UInt8 :=
  magic ++ [1, msgType, encoding, 0] ++ encode msgId ++ encode payloadLen

/-- `_wire-parse-header`. -/
def parseHeader (buf : List UInt8) : Option Fields :=
  if buf.take 4 = magic then
    some {
      msgType := buf.getD 5 0
      encoding := buf.getD 6 0
      msgId := decode 4 ((buf.drop 8).take 4)
      payloadLen := (decode 4 ((buf.drop 12).take 4)).toInt }
  else none

/-- A message as it is delivered. -/
structure Message where
  msgType : UInt8
  encoding : UInt8
  msgId : BitVec (8 * 4)
  payload : List UInt8
deriving DecidableEq

/-- The array of a payload; an empty one has one element. -/
def payloadArray (payload : List UInt8) : List UInt8 := if payload = [] then [0] else payload

/-- The message of a header and its payload. -/
def Fields.message (f : Fields) (payload : List UInt8) : Message :=
  ⟨f.msgType, f.encoding, f.msgId, payloadArray payload⟩

/-- What the reader delivers for a client. -/
inductive Delivery
  | disconnect
  | message (m : Message)
deriving DecidableEq

/-- What is delivered where the bytes end. -/
def ending (eof : Bool) : List Delivery := if eof then [.disconnect] else []

/-- What is delivered for a stream of bytes. -/
def deliveries (eof : Bool) (stream : List UInt8) : List Delivery :=
  if _h : stream.length < headerSize then ending eof
  else
    match parseHeader stream with
    | none => [.disconnect]
    | some f =>
        if stream.length < headerSize + f.payloadLen.toNat then ending eof
        else
          .message (f.message ((stream.drop headerSize).take f.payloadLen.toNat)) ::
            deliveries eof (stream.drop (headerSize + f.payloadLen.toNat))
termination_by stream.length
decreasing_by
  rw [List.length_drop]
  have : 0 < headerSize := by decide
  omega

/-- No header of the stream asks for a negative number of bytes. -/
def lengthsFit (stream : List UInt8) : Bool :=
  if _h : stream.length < headerSize then true
  else
    match parseHeader stream with
    | none => true
    | some f =>
        if f.payloadLen < 0 then false
        else if stream.length < headerSize + f.payloadLen.toNat then true
        else lengthsFit (stream.drop (headerSize + f.payloadLen.toNat))
termination_by stream.length
decreasing_by
  rw [List.length_drop]
  have : 0 < headerSize := by decide
  omega

/-! ## The frames that are sent -/

/-- A frame as `_wire-send-message` puts it together; its length is an int. -/
structure Frame where
  msgType : UInt8
  encoding : UInt8
  msgId : BitVec (8 * 4)
  payload : List UInt8
  fits : payload.length < 2 ^ 31

/-- The bytes of a frame. -/
def Frame.bytes (f : Frame) : List UInt8 :=
  buildHeader f.msgType f.encoding f.msgId (BitVec.ofNat _ f.payload.length) ++ f.payload

/-- The message of a frame. -/
def Frame.message (f : Frame) : Message :=
  ⟨f.msgType, f.encoding, f.msgId, payloadArray f.payload⟩

variable {eof : Bool} {stream rest : List UInt8}

theorem length_buildHeader (msgType encoding : UInt8) (msgId payloadLen : BitVec (8 * 4)) :
    (buildHeader msgType encoding msgId payloadLen).length = headerSize := by
  simp [buildHeader, magic, headerSize]

/-- A header is read as it was written, but for the sign of the length. -/
theorem parseHeader_buildHeader (msgType encoding : UInt8) (msgId payloadLen : BitVec (8 * 4))
    (rest : List UInt8) :
    parseHeader (buildHeader msgType encoding msgId payloadLen ++ rest) =
      some ⟨msgType, encoding, msgId, payloadLen.toInt⟩ := by
  have hmagic : (buildHeader msgType encoding msgId payloadLen ++ rest).take 4 = magic := by
    simp [buildHeader, magic]
  have hid : ((buildHeader msgType encoding msgId payloadLen ++ rest).drop 8).take 4 =
      encode msgId := by
    have hsplit : buildHeader msgType encoding msgId payloadLen ++ rest =
        (magic ++ [1, msgType, encoding, 0]) ++ (encode msgId ++ (encode payloadLen ++ rest)) := by
      simp only [buildHeader, List.append_assoc]
    rw [hsplit, List.drop_left' (by simp [magic]), List.take_left' (length_encode _)]
  have hlen : ((buildHeader msgType encoding msgId payloadLen ++ rest).drop 12).take 4 =
      encode payloadLen := by
    have hsplit : buildHeader msgType encoding msgId payloadLen ++ rest =
        (magic ++ [1, msgType, encoding, 0] ++ encode msgId) ++ (encode payloadLen ++ rest) := by
      simp only [buildHeader, List.append_assoc]
    rw [hsplit, List.drop_left' (by simp [magic]), List.take_left' (length_encode _)]
  rw [parseHeader, if_pos hmagic, hid, hlen, decode_encode, decode_encode]
  rfl

/-! ## Reading from the front of a stream -/

theorem deliveries_short (h : stream.length < headerSize) : deliveries eof stream = ending eof := by
  rw [deliveries, dif_pos h]

theorem deliveries_bad (h : headerSize ≤ stream.length) (hparse : parseHeader stream = none) :
    deliveries eof stream = [.disconnect] := by
  rw [deliveries, dif_neg (not_lt.mpr h), hparse]

theorem deliveries_incomplete {f : Fields} (h : headerSize ≤ stream.length)
    (hparse : parseHeader stream = some f)
    (hlen : stream.length < headerSize + f.payloadLen.toNat) : deliveries eof stream = ending eof := by
  rw [deliveries, dif_neg (not_lt.mpr h), hparse]
  exact if_pos hlen

theorem deliveries_frame {f : Fields} (hparse : parseHeader stream = some f)
    (hlen : headerSize + f.payloadLen.toNat ≤ stream.length) :
    deliveries eof stream =
      .message (f.message ((stream.drop headerSize).take f.payloadLen.toNat)) ::
        deliveries eof (stream.drop (headerSize + f.payloadLen.toNat)) := by
  rw [deliveries, dif_neg (by omega), hparse]
  exact if_neg (not_lt.mpr hlen)

theorem lengthsFit_short (h : stream.length < headerSize) : lengthsFit stream = true := by
  rw [lengthsFit, dif_pos h]

theorem lengthsFit_bad (h : headerSize ≤ stream.length) (hparse : parseHeader stream = none) :
    lengthsFit stream = true := by
  rw [lengthsFit, dif_neg (not_lt.mpr h), hparse]

theorem lengthsFit_negative {f : Fields} (h : headerSize ≤ stream.length)
    (hparse : parseHeader stream = some f) (hneg : f.payloadLen < 0) :
    lengthsFit stream = false := by
  rw [lengthsFit, dif_neg (not_lt.mpr h), hparse]
  exact if_pos hneg

theorem lengthsFit_incomplete {f : Fields} (h : headerSize ≤ stream.length)
    (hparse : parseHeader stream = some f) (hnonneg : 0 ≤ f.payloadLen)
    (hlen : stream.length < headerSize + f.payloadLen.toNat) : lengthsFit stream = true := by
  rw [lengthsFit, dif_neg (not_lt.mpr h), hparse]
  simp only
  rw [if_neg (not_lt.mpr hnonneg), if_pos hlen]

theorem lengthsFit_frame {f : Fields} (hparse : parseHeader stream = some f)
    (hnonneg : 0 ≤ f.payloadLen) (hlen : headerSize + f.payloadLen.toNat ≤ stream.length) :
    lengthsFit stream = lengthsFit (stream.drop (headerSize + f.payloadLen.toNat)) := by
  rw [lengthsFit, dif_neg (by omega), hparse]
  simp only
  rw [if_neg (not_lt.mpr hnonneg), if_neg (not_lt.mpr hlen)]

/-- A header is read from the first bytes of a stream. -/
theorem parseHeader_append {header : List UInt8} (h : header.length = headerSize)
    (rest : List UInt8) : parseHeader (header ++ rest) = parseHeader header := by
  have hlen : header.length = 16 := h
  unfold parseHeader
  rw [List.take_append_of_le_length (by omega), List.drop_append_of_le_length (by omega),
    List.drop_append_of_le_length (by omega),
    List.take_append_of_le_length (by rw [List.length_drop]; omega),
    List.take_append_of_le_length (by rw [List.length_drop]; omega),
    List.getD_append _ _ _ _ (by omega), List.getD_append _ _ _ _ (by omega)]

theorem Frame.toInt_length (f : Frame) :
    (BitVec.ofNat (8 * 4) f.payload.length).toInt = f.payload.length := by
  have hlt : f.payload.length < 2 ^ 31 := f.fits
  rw [BitVec.toInt_eq_toNat_of_lt, BitVec.toNat_ofNat, Nat.mod_eq_of_lt (by omega)]
  rw [BitVec.toNat_ofNat, Nat.mod_eq_of_lt (by omega)]
  omega

/-- **A frame at the front of a stream is delivered as it was sent.** -/
theorem deliveries_bytes (eof : Bool) (f : Frame) (rest : List UInt8) :
    deliveries eof (f.bytes ++ rest) = .message f.message :: deliveries eof rest ∧
      lengthsFit (f.bytes ++ rest) = lengthsFit rest := by
  have hstream : f.bytes ++ rest = buildHeader f.msgType f.encoding f.msgId
      (BitVec.ofNat _ f.payload.length) ++ (f.payload ++ rest) := List.append_assoc ..
  have hheader : (buildHeader f.msgType f.encoding f.msgId
      (BitVec.ofNat _ f.payload.length)).length = headerSize := length_buildHeader ..
  have hparse := parseHeader_buildHeader f.msgType f.encoding f.msgId
    (BitVec.ofNat _ f.payload.length) (f.payload ++ rest)
  rw [f.toInt_length] at hparse
  have hlen : headerSize + (f.payload.length : ℤ).toNat ≤ (buildHeader f.msgType f.encoding f.msgId
      (BitVec.ofNat _ f.payload.length) ++ (f.payload ++ rest)).length := by
    rw [List.length_append, hheader, List.length_append, Int.toNat_natCast]
    omega
  have hdrop : (buildHeader f.msgType f.encoding f.msgId (BitVec.ofNat _ f.payload.length) ++
      (f.payload ++ rest)).drop (headerSize + f.payload.length) = rest := by
    rw [← List.drop_drop, List.drop_left' hheader, List.drop_left]
  rw [hstream]
  constructor
  · rw [deliveries_frame hparse hlen, List.drop_left' hheader, Int.toNat_natCast, List.take_left,
      hdrop]
    rfl
  · rw [lengthsFit_frame hparse (Int.natCast_nonneg _) hlen, Int.toNat_natCast, hdrop]

/-- The frames of a stream are delivered as they were sent. -/
theorem deliveries_frames (eof : Bool) (frames : List Frame) (rest : List UInt8) :
    deliveries eof (frames.flatMap Frame.bytes ++ rest) =
        frames.map (fun f => .message f.message) ++ deliveries eof rest ∧
      lengthsFit (frames.flatMap Frame.bytes ++ rest) = lengthsFit rest := by
  induction frames with
  | nil => exact ⟨rfl, rfl⟩
  | cons f frames ih =>
      obtain ⟨hdeliveries, hfit⟩ := deliveries_bytes eof f (frames.flatMap Frame.bytes ++ rest)
      rw [List.flatMap_cons, List.append_assoc, hdeliveries, hfit, ih.1, ih.2]
      exact ⟨rfl, rfl⟩

end Lush.Wire
