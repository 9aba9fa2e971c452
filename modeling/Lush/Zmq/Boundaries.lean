import Lush.Zmq.Sockets

/-!
# Message boundaries

A receiver is meant to take one message of its socket, and to use the frames of this message.
It takes a fixed number of frames instead: `zmq-sub-recv` and `zmq-query-recv` one, and one more
if there is one, `zmq-router-recv-query` three.  Frames that are left over are taken for the
start of the next message, and frames that are missing are taken from it.

`Fits` says which messages a receiver can take.  A run of calls keeps to the boundaries exactly
when every message fits that a call meets (`keeps_iff`).
-/

namespace Lush.Zmq

variable {ι ν : Type}

/-! ## Mailboxes -/

/-- What a receiver has of a message: the topic and the payload that goes to `bread`, or the
payload and the identity that is kept for the reply. -/
def Shows : Kind → Message → Option (Reply (List UInt8)) → Socket → Prop
  | .sub _, m, reply, _ =>
      ∃ topic : CString, topic.bytes = m.first ∧ reply = some ⟨some topic, m.rest.head?⟩
  | .query _, m, reply, _ => reply = m.rest.head?.map fun payload => ⟨none, some payload⟩
  | .router, m, reply, s =>
      s.identity = m.first ∧
        reply = ((m.rest[1]?).filter (· ≠ [])).map fun payload => ⟨none, some payload⟩

/-- A payload that can be copied out of the buffer. -/
def FitsBuffer (payload : List UInt8) : Prop := payload ≠ [] ∧ payload.length ≤ recvBufSize

/-- The messages that a receiver can take. -/
def Fits : Kind → Message → Prop
  | .sub _, m =>
      m.rest.length ≤ 1 ∧ 0 ∉ m.first ∧ m.first.length ≤ recvBufSize ∧ ∀ p ∈ m.rest, FitsBuffer p
  | .query _, m => m.rest.length ≤ 1 ∧ ∀ p ∈ m.rest, FitsBuffer p
  | .router, m =>
      m.first.length ≤ identitySize ∧
        ∃ delim payload, m.rest = [delim, payload] ∧ payload.length ≤ recvBufSize

/-- A call of a receiver, for a socket. -/
structure Call (ι : Type) where
  kind : Kind
  id : ι

variable [DecidableEq ι]

omit [DecidableEq ι] in
/-- The frames that are left are those of some messages for every socket. -/
def Holds (st : State ι) (q : ι → List Message) : Prop :=
  ∀ i, (st.sockets i).frames = (q i).flatMap Message.frames

/-- Every call takes the first message that is left for its socket, and has what is in it.  A
call without a message waits, or returns `()`. -/
def Keeps : State ι → (ι → List Message) → List (Call ι) → Prop
  | _, _, [] => True
  | st, q, c :: cs =>
      match q c.id with
      | [] => ∀ r st', receive Except.ok st c.id c.kind = some (r, st') → Keeps st' q cs
      | m :: ms =>
          ∃ reply st', receive Except.ok st c.id c.kind = some (.ok reply, st') ∧
            Shows c.kind m reply (st'.sockets c.id) ∧ Holds st' (Function.update q c.id ms) ∧
            Keeps st' (Function.update q c.id ms) cs

/-- The call waits when there is no message. -/
def Kind.waits : Kind → Bool
  | .sub dontwait => !dontwait
  | .query dontwait => !dontwait
  | .router => true

/-- Every message fits that a call meets. -/
def AllFit : (ι → List Message) → List (Call ι) → Prop
  | _, [] => True
  | q, c :: cs =>
      match q c.id with
      | [] => c.kind.waits = false → AllFit q cs
      | m :: ms => Fits c.kind m ∧ AllFit (Function.update q c.id ms) cs

/-- The messages of every socket, before the first call. -/
def State.start (q : ι → List Message) : State ι where
  sockets i := ⟨(q i).flatMap Message.frames, false, []⟩
  buf := List.replicate recvBufSize 0
  size := List.length_replicate

variable {st st' : State ι} {id : ι} {m : Message} {more : List (List UInt8 × Bool)}

/-! ## Taking frames -/

omit [DecidableEq ι] in
theorem readBytes_ok_iff {n : ℕ} {bytes : List UInt8} :
    st.readBytes n = .ok bytes ↔ n ≤ recvBufSize ∧ st.buf.take n = bytes := by
  unfold State.readBytes
  split_ifs with hn
  · simp [hn]
  · simp [hn]

omit [DecidableEq ι] in
/-- The frame is read again when there is room for it. -/
theorem readBytes_fill {frame bytes : List UInt8} :
    (st.fill frame).readBytes frame.length = .ok bytes ↔
      frame.length ≤ recvBufSize ∧ frame = bytes := by
  rw [readBytes_ok_iff]
  refine and_congr_right fun hle => ?_
  show (frame.take recvBufSize ++ st.buf.drop (min frame.length recvBufSize)).take frame.length =
    bytes ↔ frame = bytes
  rw [List.take_of_length_le hle, List.take_left]

omit [DecidableEq ι] in
/-- What `bread` gets of a frame. -/
theorem breadPayload_fill {frame : List UInt8} {topic : Option CString}
    {reply : Option (Reply (List UInt8))} :
    (st.fill frame).breadPayload Except.ok topic frame.length = .ok reply ↔
      FitsBuffer frame ∧ reply = some ⟨topic, some frame⟩ := by
  unfold State.breadPayload State.readPayload Wire.newMatrix FitsBuffer
  by_cases hnil : frame = []
  · simp [hnil, Bind.bind, Except.bind]
  · rw [if_neg (mt List.length_eq_zero_iff.mp hnil)]
    by_cases hle : frame.length ≤ recvBufSize
    · have hread : (st.fill frame).readBytes frame.length = .ok frame :=
        readBytes_fill.mpr ⟨hle, rfl⟩
      simp [Bind.bind, Except.bind, hread, hnil, hle, eq_comm]
    · have hread : (st.fill frame).readBytes frame.length = .error (.error "subscript out of range") :=
        if_neg hle
      simp [Bind.bind, Except.bind, hread, hle]

omit [DecidableEq ι] in
@[simp] theorem sockets_fill (frame : List UInt8) : (st.fill frame).sockets = st.sockets := rfl

/-- A frame that is there is taken. -/
theorem recvFrame_cons {frame : List UInt8} {flag : Bool} {rest : List (List UInt8 × Bool)}
    (h : (st.sockets id).frames = (frame, flag) :: rest) :
    ∃ st1 : State ι, st1.sockets =
        Function.update st.sockets id ⟨rest, flag, (st.sockets id).identity⟩ ∧
      st.recvFrame id = some (frame, st1) := by
  refine ⟨st.set id ⟨rest, flag, (st.sockets id).identity⟩, rfl, ?_⟩
  unfold State.recvFrame
  rw [h]

theorem zmqRecv_cons {frame : List UInt8} {flag : Bool} {rest : List (List UInt8 × Bool)}
    (h : (st.sockets id).frames = (frame, flag) :: rest) :
    ∃ st1 : State ι, st1.sockets =
        Function.update st.sockets id ⟨rest, flag, (st.sockets id).identity⟩ ∧
      st.zmqRecv id = some (frame.length, st1.fill frame) := by
  obtain ⟨st1, hsockets, hrecv⟩ := recvFrame_cons h
  refine ⟨st1, hsockets, ?_⟩
  unfold State.zmqRecv
  rw [hrecv]

theorem recvFrame_nil (h : (st.sockets id).frames = []) : st.recvFrame id = none := by
  unfold State.recvFrame
  rw [h]

theorem zmqRecv_nil (h : (st.sockets id).frames = []) : st.zmqRecv id = none := by
  unfold State.zmqRecv
  rw [recvFrame_nil h]

/-- A receiver takes exactly a message, and has what is in it. -/
def Takes (kind : Kind) (st : State ι) (id : ι) (m : Message) (more : List (List UInt8 × Bool)) :
    Prop :=
  ∃ reply st', receive Except.ok st id kind = some (.ok reply, st') ∧
    Shows kind m reply (st'.sockets id) ∧ (st'.sockets id).frames = more ∧
    ∀ i, i ≠ id → (st'.sockets i).frames = (st.sockets i).frames

theorem bytes_bytesToString_iff (bytes : List UInt8) :
    (Wire.bytesToString bytes).bytes = bytes ↔ 0 ∉ bytes := by
  show bytes.filter (· ≠ 0) = bytes ↔ _
  rw [List.filter_eq_self]
  constructor
  · intro h hmem
    simpa using h 0 hmem
  · intro h b hb
    exact decide_eq_true fun h0 => h (h0 ▸ hb)

theorem length_frames (first : List UInt8) (rest : List (List UInt8)) :
    (frames first rest).length = rest.length + 1 := by
  induction rest generalizing first with
  | nil => rfl
  | cons next rest ih => rw [frames, List.length_cons, ih, List.length_cons]

/-- Frames that are left over, or that are missing. -/
theorem append_ne {l l' more : List (List UInt8 × Bool)} (h : l.length ≠ l'.length) :
    l ++ more ≠ l' ++ more := by
  intro heq
  have hlength := congrArg List.length heq
  simp only [List.length_append] at hlength
  omega

/-! ## One call -/

section Receivers

variable {bread : List UInt8 → Except Fault ν} {dontwait flag flag' : Bool}
  {first next third : List UInt8} {rest : List (List UInt8 × Bool)}

theorem zmqSubRecv_long (bread : List UInt8 → Except Fault ν) (dontwait : Bool)
    (h : (st.sockets id).frames = (first, flag) :: rest)
    (hlong : ¬first.length ≤ recvBufSize) :
    ∃ e st', zmqSubRecv bread st id dontwait = some (.error e, st') := by
  obtain ⟨st1, -, hrecv⟩ := zmqRecv_cons h
  refine ⟨.error "subscript out of range", st1.fill first, ?_⟩
  simp only [zmqSubRecv, hrecv, State.readBytes, if_neg hlong]

/-- A topic that is all of its message. -/
theorem zmqSubRecv_single (h : (st.sockets id).frames = (first, false) :: rest)
    (hle : first.length ≤ recvBufSize) :
    ∃ st' : State ι, st'.sockets =
        Function.update st.sockets id ⟨rest, false, (st.sockets id).identity⟩ ∧
      zmqSubRecv bread st id dontwait =
        some (.ok (some ⟨some (Wire.bytesToString first), none⟩), st') := by
  obtain ⟨st1, hsockets, hrecv⟩ := zmqRecv_cons h
  refine ⟨st1.fill first, hsockets, ?_⟩
  have hmore : ((st1.fill first).sockets id).more = false := by
    rw [sockets_fill, hsockets, Function.update_self]
  simp only [zmqSubRecv, hrecv, readBytes_fill.mpr ⟨hle, rfl⟩, if_pos hmore]

/-- What is known after the first of two frames. -/
theorem zmqRecv_pair (h : (st.sockets id).frames = (first, true) :: (next, flag) :: rest) :
    ∃ st1 st2 : State ι, st.zmqRecv id = some (first.length, st1.fill first) ∧
      ((st1.fill first).sockets id).more = true ∧
      (st1.fill first).zmqRecv id = some (next.length, st2.fill next) ∧
      st2.sockets = Function.update st.sockets id ⟨rest, flag, (st.sockets id).identity⟩ := by
  obtain ⟨st1, hsockets, hrecv⟩ := zmqRecv_cons h
  have hsocket : (st1.fill first).sockets id =
      ⟨(next, flag) :: rest, true, (st.sockets id).identity⟩ := by
    rw [sockets_fill, hsockets, Function.update_self]
  obtain ⟨st2, hsockets2, hrecv2⟩ := zmqRecv_cons
    (show ((st1.fill first).sockets id).frames = (next, flag) :: rest by rw [hsocket])
  refine ⟨st1, st2, hrecv, by rw [hsocket], hrecv2, ?_⟩
  rw [hsockets2, hsocket, sockets_fill, hsockets, Function.update_idem]

/-- A topic with a payload. -/
theorem zmqSubRecv_pair (h : (st.sockets id).frames = (first, true) :: (next, flag) :: rest)
    (hle : first.length ≤ recvBufSize) :
    ∃ st' : State ι, st'.sockets =
        Function.update st.sockets id ⟨rest, flag, (st.sockets id).identity⟩ ∧
      zmqSubRecv bread st id dontwait =
        some ((st'.fill next).breadPayload bread (some (Wire.bytesToString first)) next.length,
          st'.fill next) := by
  obtain ⟨st1, st2, hrecv, hmore, hrecv2, hsockets⟩ := zmqRecv_pair h
  refine ⟨st2, hsockets, ?_⟩
  simp only [zmqSubRecv, hrecv, readBytes_fill.mpr ⟨hle, rfl⟩, hmore, hrecv2, Bool.true_eq_false,
    if_false]

theorem zmqQueryRecv_single (h : (st.sockets id).frames = (first, false) :: rest) :
    ∃ st' : State ι, st'.sockets =
        Function.update st.sockets id ⟨rest, false, (st.sockets id).identity⟩ ∧
      zmqQueryRecv bread st id dontwait = some (.ok none, st') := by
  obtain ⟨st1, hsockets, hrecv⟩ := zmqRecv_cons h
  refine ⟨st1.fill first, hsockets, ?_⟩
  have hmore : ((st1.fill first).sockets id).more = false := by
    rw [sockets_fill, hsockets, Function.update_self]
  simp only [zmqQueryRecv, hrecv, if_pos hmore]

theorem zmqQueryRecv_pair (h : (st.sockets id).frames = (first, true) :: (next, flag) :: rest) :
    ∃ st' : State ι, st'.sockets =
        Function.update st.sockets id ⟨rest, flag, (st.sockets id).identity⟩ ∧
      zmqQueryRecv bread st id dontwait =
        some ((st'.fill next).breadPayload bread none next.length, st'.fill next) := by
  obtain ⟨st1, st2, hrecv, hmore, hrecv2, hsockets⟩ := zmqRecv_pair h
  refine ⟨st2, hsockets, ?_⟩
  simp only [zmqQueryRecv, hrecv, hmore, hrecv2, Bool.true_eq_false, if_false]

/-- Three frames, of one message or not. -/
theorem routerRecv_cons {flag3 : Bool}
    (h : (st.sockets id).frames = (first, flag) :: (next, flag') :: (third, flag3) :: rest) :
    ∃ st' : State ι, st'.sockets =
        Function.update st.sockets id ⟨rest, flag3, first.take identitySize⟩ ∧
      st.routerRecv id = some (third.length, st'.fill third) := by
  obtain ⟨st1, hsockets1, hrecv1⟩ := recvFrame_cons h
  obtain ⟨st2, hst2⟩ : ∃ st2 : State ι, st2 = st1.set id
      { st1.sockets id with identity := first.take identitySize } := ⟨_, rfl⟩
  have hsockets2 : st2.sockets = Function.update st.sockets id
      ⟨(next, flag') :: (third, flag3) :: rest, flag, first.take identitySize⟩ := by
    rw [hst2]
    show Function.update st1.sockets id _ = _
    rw [hsockets1, Function.update_self, Function.update_idem]
  have hsocket2 := congrFun hsockets2 id
  rw [Function.update_self] at hsocket2
  obtain ⟨st3, hsockets3, hrecv3⟩ := recvFrame_cons
    (show (st2.sockets id).frames = (next, flag') :: (third, flag3) :: rest by rw [hsocket2])
  have hsocket3 : st3.sockets id = ⟨(third, flag3) :: rest, flag', first.take identitySize⟩ := by
    rw [hsockets3, Function.update_self, hsocket2]
  obtain ⟨st4, hsockets4, hrecv4⟩ := zmqRecv_cons
    (show (st3.sockets id).frames = (third, flag3) :: rest by rw [hsocket3])
  refine ⟨st4, ?_, ?_⟩
  · rw [hsockets4, hsocket3, hsockets3, hsockets2, Function.update_idem, Function.update_idem]
  · simp only [State.routerRecv, hrecv1, ← hst2, hrecv3, hrecv4]

/-- A router waits for three frames. -/
theorem routerRecv_none (h : (st.sockets id).frames.length < 3) : st.routerRecv id = none := by
  obtain ⟨fs, hfs⟩ : ∃ fs, fs = (st.sockets id).frames := ⟨_, rfl⟩
  rw [← hfs] at h
  rcases fs with - | ⟨⟨first, flag⟩, fs⟩
  · simp only [State.routerRecv, recvFrame_nil hfs.symm]
  · obtain ⟨st1, hsockets1, hrecv1⟩ := recvFrame_cons hfs.symm
    obtain ⟨st2, hst2⟩ : ∃ st2 : State ι, st2 = st1.set id
        { st1.sockets id with identity := first.take identitySize } := ⟨_, rfl⟩
    have hframes2 : (st2.sockets id).frames = fs := by
      rw [hst2]
      show (Function.update st1.sockets id _ id).frames = fs
      rw [Function.update_self, hsockets1, Function.update_self]
    simp only [State.routerRecv, hrecv1, ← hst2]
    rcases fs with - | ⟨⟨next, flag'⟩, fs⟩
    · rw [recvFrame_nil hframes2]
    · obtain ⟨st3, hsockets3, hrecv3⟩ := recvFrame_cons hframes2
      obtain rfl : fs = [] := by
        simp only [List.length_cons] at h
        exact List.length_eq_zero_iff.mp (by omega)
      have hframes3 : (st3.sockets id).frames = [] := by
        rw [hsockets3, Function.update_self]
      simp only [hrecv3, zmqRecv_nil hframes3]

end Receivers

/-! ## What is made of a payload -/

/-- What `bread` makes of a reply. -/
def Result.decode (bread : List UInt8 → Except Fault ν) (r : Result (List UInt8)) : Result ν :=
  match r with
  | .error e => .error e
  | .ok none => .ok none
  | .ok (some ⟨topic, none⟩) => .ok (some ⟨topic, none⟩)
  | .ok (some ⟨topic, some payload⟩) =>
      match bread payload with
      | .error e => .error e
      | .ok v => .ok (some ⟨topic, some v⟩)

omit [DecidableEq ι] in
theorem breadPayload_decode (bread : List UInt8 → Except Fault ν) (topic : Option CString)
    (n : ℕ) : st.breadPayload bread topic n =
      Result.decode bread (st.breadPayload Except.ok topic n) := by
  unfold State.breadPayload
  cases st.readPayload n with
  | error e => rfl
  | ok payload => rfl

/-- **Whatever `bread` does, it does it to the payload that a receiver shows.** -/
theorem receive_decode (bread : List UInt8 → Except Fault ν) (kind : Kind) :
    receive bread st id kind =
      (receive Except.ok st id kind).map fun p => (Result.decode bread p.1, p.2) := by
  cases kind with
  | sub dontwait =>
      simp only [receive, zmqSubRecv]
      split
      · cases dontwait <;> rfl
      · split
        · rfl
        · split_ifs
          · rfl
          · split
            · rfl
            · rw [Option.map_some, breadPayload_decode bread]
  | query dontwait =>
      simp only [receive, zmqQueryRecv]
      split
      · cases dontwait <;> rfl
      · split_ifs
        · rfl
        · split
          · rfl
          · rw [Option.map_some, breadPayload_decode bread]
  | router =>
      simp only [receive, zmqRouterRecvQuery]
      split
      · rfl
      · split_ifs
        · rfl
        · rw [Option.map_some, breadPayload_decode bread]

omit [DecidableEq ι] in
/-- A reply goes to the peer whose message was taken. -/
theorem routerSend_of_shows {reply : Option (Reply (List UInt8))} (payload : List UInt8)
    (hshows : Shows .router m reply (st.sockets id)) (hfirst : m.first ≠ []) :
    st.routerSend id payload = some [m.first, [], payload] := by
  unfold State.routerSend
  rw [hshows.1, if_neg hfirst]

/-! ## Which messages are taken -/

/-- What a receiver that has returned leaves of its socket and of the others. -/
theorem takes_iff_of_sockets (kind : Kind) {s : Socket} {r : Result (List UInt8)}
    (hsockets : st'.sockets = Function.update st.sockets id s)
    (hreceive : receive Except.ok st id kind = some (r, st')) :
    Takes kind st id m more ↔ (∃ reply, r = .ok reply ∧ Shows kind m reply s) ∧ s.frames = more := by
  have hself : st'.sockets id = s := by rw [hsockets, Function.update_self]
  constructor
  · rintro ⟨reply, st1, hreceive1, hshows, hframes, -⟩
    obtain ⟨rfl, rfl⟩ := Prod.mk.inj (Option.some.inj (hreceive.symm.trans hreceive1))
    rw [hself] at hshows hframes
    exact ⟨⟨reply, rfl, hshows⟩, hframes⟩
  · rintro ⟨⟨reply, rfl, hshows⟩, hframes⟩
    refine ⟨reply, st', hreceive, by rwa [hself], by rw [hself, hframes], fun i hi => ?_⟩
    rw [hsockets, Function.update_of_ne hi]

theorem exists_frames_eq (first : List UInt8) (rest : List (List UInt8)) :
    ∃ flag tail, frames first rest = (first, flag) :: tail := by
  cases rest with
  | nil => exact ⟨false, [], rfl⟩
  | cons next rest => exact ⟨true, frames next rest, rfl⟩

/-- A message has a frame. -/
theorem frames_append_ne (first : List UInt8) (rest : List (List UInt8)) :
    frames first rest ++ more ≠ more := by
  intro heq
  have hlength := congrArg List.length heq
  rw [List.length_append, length_frames] at hlength
  omega

/-- **A subscriber takes a message exactly when it fits.** -/
theorem takes_sub_iff {dontwait : Bool} (h : (st.sockets id).frames = m.frames ++ more) :
    Takes (.sub dontwait) st id m more ↔ Fits (.sub dontwait) m := by
  obtain ⟨first, rest⟩ := m
  by_cases hle : first.length ≤ recvBufSize
  · have htopic : (∃ topic : CString, topic.bytes = first ∧ Wire.bytesToString first = topic) ↔
        0 ∉ first := by
      rw [← bytes_bytesToString_iff]
      exact ⟨fun ⟨topic, hbytes, heq⟩ => heq ▸ hbytes, fun hbytes => ⟨_, hbytes, rfl⟩⟩
    rcases rest with - | ⟨next, - | ⟨third, rest⟩⟩
    · obtain ⟨st1, hsockets, hreceive⟩ := zmqSubRecv_single h hle
      rw [takes_iff_of_sockets (.sub dontwait) hsockets hreceive]
      simp [Shows, Fits, hle, htopic]
    · obtain ⟨st1, hsockets, hreceive⟩ := zmqSubRecv_pair h hle
      rw [takes_iff_of_sockets (.sub dontwait)
        (show (st1.fill next).sockets = _ from hsockets) hreceive]
      constructor
      · rintro ⟨⟨reply, hread, topic, hbytes, rfl⟩, -⟩
        obtain ⟨hfits, heq⟩ := breadPayload_fill.mp hread
        have hbytesTo : Wire.bytesToString first = topic := by
          simpa using (congrArg (Option.map Reply.topic) heq).symm
        exact ⟨le_rfl, htopic.mp ⟨topic, hbytes, hbytesTo⟩, hle,
          fun p hp => List.mem_singleton.mp hp ▸ hfits⟩
      · rintro ⟨-, hzero, -, hfits⟩
        obtain ⟨topic, hbytes, heq⟩ := htopic.mpr hzero
        exact ⟨⟨_, breadPayload_fill.mpr ⟨hfits next (List.mem_singleton_self next), rfl⟩,
          topic, hbytes, by rw [heq]; rfl⟩, rfl⟩
    · obtain ⟨st1, hsockets, hreceive⟩ := zmqSubRecv_pair h hle
      rw [takes_iff_of_sockets (.sub dontwait)
        (show (st1.fill next).sockets = _ from hsockets) hreceive]
      exact iff_of_false (fun hand => frames_append_ne third rest hand.2)
        (fun hfits => by simpa using hfits.1)
  · refine iff_of_false ?_ fun hfits => hle hfits.2.2.1
    rintro ⟨reply, st', hreceive, -⟩
    obtain ⟨flag, tail, hframes⟩ := exists_frames_eq first rest
    obtain ⟨e, st1, hreceive1⟩ := zmqSubRecv_long Except.ok dontwait
      (h.trans (congrArg (· ++ more) hframes)) hle
    exact absurd (hreceive1.symm.trans hreceive) (by simp)

/-- **A receiver of queries takes a message exactly when it fits.** -/
theorem takes_query_iff {dontwait : Bool} (h : (st.sockets id).frames = m.frames ++ more) :
    Takes (.query dontwait) st id m more ↔ Fits (.query dontwait) m := by
  obtain ⟨first, rest⟩ := m
  rcases rest with - | ⟨next, - | ⟨third, rest⟩⟩
  · obtain ⟨st1, hsockets, hreceive⟩ := zmqQueryRecv_single h
    rw [takes_iff_of_sockets (.query dontwait) hsockets hreceive]
    simp [Shows, Fits]
  · obtain ⟨st1, hsockets, hreceive⟩ := zmqQueryRecv_pair h
    rw [takes_iff_of_sockets (.query dontwait)
        (show (st1.fill next).sockets = _ from hsockets) hreceive]
    constructor
    · rintro ⟨⟨reply, hread, -⟩, -⟩
      exact ⟨le_rfl, fun p hp => List.mem_singleton.mp hp ▸ (breadPayload_fill.mp hread).1⟩
    · rintro ⟨-, hfits⟩
      exact ⟨⟨_, breadPayload_fill.mpr ⟨hfits next (List.mem_singleton_self next), rfl⟩, rfl⟩, rfl⟩
  · obtain ⟨st1, hsockets, hreceive⟩ := zmqQueryRecv_pair h
    rw [takes_iff_of_sockets (.query dontwait)
        (show (st1.fill next).sockets = _ from hsockets) hreceive]
    exact iff_of_false (fun hand => frames_append_ne third rest hand.2)
      (fun hfits => by simpa using hfits.1)

/-- What the router makes of three frames. -/
theorem receive_router_cons {first next third : List UInt8} {flag flag' flag3 : Bool}
    {rest : List (List UInt8 × Bool)}
    (h : (st.sockets id).frames = (first, flag) :: (next, flag') :: (third, flag3) :: rest) :
    ∃ st' : State ι, st'.sockets =
        Function.update st.sockets id ⟨rest, flag3, first.take identitySize⟩ ∧
      receive Except.ok st id .router =
        some (if third = [] then .ok none
          else (st'.fill third).breadPayload Except.ok none third.length, st'.fill third) := by
  obtain ⟨st1, hsockets, hrecv⟩ := routerRecv_cons h
  refine ⟨st1, hsockets, ?_⟩
  by_cases hnil : third = []
  · simp [receive, zmqRouterRecvQuery, hrecv, hnil]
  · simp [receive, zmqRouterRecvQuery, hrecv, hnil]

/-- **A router takes a message exactly when it fits.** -/
theorem takes_router_iff (h : (st.sockets id).frames = m.frames ++ more) :
    Takes .router st id m more ↔ Fits .router m := by
  obtain ⟨first, rest⟩ := m
  by_cases htwo : rest.length = 2
  · obtain ⟨delim, payload, rfl⟩ := List.length_eq_two.mp htwo
    obtain ⟨st1, hsockets, hreceive⟩ := receive_router_cons h
    rw [takes_iff_of_sockets .router (show (st1.fill payload).sockets = _ from hsockets) hreceive]
    have hidentity : first.take identitySize = first ↔ first.length ≤ identitySize :=
      List.take_eq_self_iff first
    by_cases hnil : payload = []
    · simp [Shows, Fits, hnil, hidentity]
    · rw [if_neg hnil]
      simp only [breadPayload_fill, Shows, Fits, FitsBuffer, hidentity]
      constructor
      · rintro ⟨⟨reply, ⟨⟨-, hle⟩, -⟩, hid, -⟩, -⟩
        exact ⟨hid, delim, payload, rfl, hle⟩
      · rintro ⟨hid, delim', payload', heq, hle⟩
        obtain ⟨rfl, rfl⟩ : delim = delim' ∧ payload = payload' := by simpa using heq
        exact ⟨⟨_, ⟨⟨hnil, hle⟩, rfl⟩, hid, by simp [hnil]⟩, rfl⟩
  · refine iff_of_false ?_ ?_
    · intro htakes
      have hlength := congrArg List.length h
      rw [List.length_append, Message.frames, length_frames] at hlength
      match hframes : (st.sockets id).frames with
      | [] | [_] | [_, _] =>
          -- not even three frames with those of the next messages: the router waits
          obtain ⟨reply, st', hreceive, -⟩ := htakes
          have hnone : receive Except.ok st id .router = none := by
            rw [receive, zmqRouterRecvQuery, routerRecv_none (by simp [hframes])]
          exact absurd (hnone.symm.trans hreceive) (by simp)
      | _ :: _ :: _ :: tail =>
          -- three frames are taken, of this message and maybe of others
          obtain ⟨st1, hsockets, hreceive⟩ := receive_router_cons hframes
          obtain ⟨-, hmore⟩ := (takes_iff_of_sockets .router
            (show (st1.fill _).sockets = _ from hsockets) hreceive).mp htakes
          have hmore' : tail = more := hmore
          rw [hframes, ← hmore'] at hlength
          simp only [List.length_cons] at hlength
          omega
    · rintro ⟨-, delim, payload, heq, -⟩
      exact htwo (by rw [show rest = [delim, payload] from heq]; rfl)

/-- **Which messages a receiver takes.** -/
theorem takes_iff {kind : Kind} (h : (st.sockets id).frames = m.frames ++ more) :
    Takes kind st id m more ↔ Fits kind m := by
  cases kind with
  | sub dontwait => exact takes_sub_iff h
  | query dontwait => exact takes_query_iff h
  | router => exact takes_router_iff h

/-! ## Runs -/

/-- A call without a message. -/
theorem receive_nil (kind : Kind) (h : (st.sockets id).frames = []) :
    receive Except.ok st id kind = if kind.waits then none else some (.ok none, st) := by
  cases kind with
  | sub dontwait =>
      simp only [receive, zmqSubRecv, zmqRecv_nil h, Kind.waits]
      cases dontwait <;> rfl
  | query dontwait =>
      simp only [receive, zmqQueryRecv, zmqRecv_nil h, Kind.waits]
      cases dontwait <;> rfl
  | router => 
      have hrecv : st.routerRecv id = none := routerRecv_none (by rw [h]; decide)
      simp only [receive, zmqRouterRecvQuery, hrecv, Kind.waits, if_true]

/-- The frames of the other sockets stay. -/
theorem holds_update {q : ι → List Message} {ms : List Message} (hholds : Holds st q)
    (hself : (st'.sockets id).frames = ms.flatMap Message.frames)
    (hothers : ∀ i, i ≠ id → (st'.sockets i).frames = (st.sockets i).frames) :
    Holds st' (Function.update q id ms) := by
  intro i
  by_cases hi : i = id
  · subst hi
    rw [Function.update_self, hself]
  · rw [Function.update_of_ne hi, hothers i hi, hholds i]

/-- **A run keeps to the boundaries exactly when every message fits that a call meets.** -/
theorem keeps_iff (cs : List (Call ι)) {st : State ι} {q : ι → List Message} (h : Holds st q) :
    Keeps st q cs ↔ AllFit q cs := by
  induction cs generalizing st q with
  | nil => exact Iff.rfl
  | cons c cs ih =>
      obtain ⟨ms, hms⟩ : ∃ ms, ms = q c.id := ⟨_, rfl⟩
      have hframes := h c.id
      rw [← hms] at hframes
      unfold Keeps AllFit
      rw [← hms]
      cases ms with
      | nil =>
          have hreceive := receive_nil c.kind hframes
          cases hwaits : c.kind.waits with
          | true =>
              rw [hwaits, if_pos rfl] at hreceive
              refine iff_of_true (fun r st' hsome => ?_) (fun hfalse => by simp at hfalse)
              exact absurd (hreceive.symm.trans hsome) (by simp)
          | false =>
              rw [hwaits, if_neg Bool.false_ne_true] at hreceive
              constructor
              · intro hkeeps _
                exact (ih h).mp (hkeeps _ _ hreceive)
              · intro hfit r st' hsome
                obtain ⟨-, rfl⟩ := Prod.mk.inj (Option.some.inj (hreceive.symm.trans hsome))
                exact (ih h).mpr (hfit rfl)
      | cons m ms =>
          rw [List.flatMap_cons] at hframes
          show (∃ reply st', _) ↔ _ ∧ _
          rw [← takes_iff hframes]
          constructor
          · rintro ⟨reply, st', hreceive, hshows, hholds, hkeeps⟩
            refine ⟨⟨reply, st', hreceive, hshows, ?_, fun i hi => ?_⟩, (ih hholds).mp hkeeps⟩
            · rw [hholds c.id, Function.update_self]
            · rw [hholds i, Function.update_of_ne hi, h i]
          · rintro ⟨⟨reply, st', hreceive, hshows, hself, hothers⟩, hfit⟩
            have hholds := holds_update h hself hothers
            exact ⟨reply, st', hreceive, hshows, hholds, (ih hholds).mpr hfit⟩

/-- **Receivers keep message boundaries exactly when every message fits that they meet.** -/
theorem receivers_keep_iff (q : ι → List Message) (cs : List (Call ι)) :
    Keeps (State.start q) q cs ↔ AllFit q cs :=
  keeps_iff cs fun _ => rfl

/-- A peer that sends a frame without a delimiter before it: the router takes the identity of the
next peer for the payload. -/
theorem not_router_keeps :
    ¬Keeps (State.start fun _ : Unit => [⟨[65], [[120]]⟩, ⟨[66], [[], [113]]⟩])
      (fun _ => [⟨[65], [[120]]⟩, ⟨[66], [[], [113]]⟩]) [⟨.router, ()⟩] := by
  rw [keeps_iff _ fun _ => rfl]
  rintro ⟨⟨-, delim, payload, heq, -⟩, -⟩
  exact absurd (congrArg List.length heq) (by simp)

end Lush.Zmq
