import Lush.Httpd.Server

/-!
# Answering every connection

`Answered` says what a connection is meant to get: one response, which depends on the request, the
routes and the handler.  `httpd-serve` sends it and goes on exactly when nothing signals an error
on the way (`Fine`): the request has no body of a length that is not a number, and the handler
returns.  A run answers its connections exactly when all of them are fine (`serves_iff`).
-/

namespace Lush.Httpd

open Text (ascii decimal ofInt strNumber)

variable {σ : Type}

/-! ## Responses -/

/-- A response with a status, headers and a body. -/
def response (code : BitVec 64) (contentType body extra : List UInt8) : List UInt8 :=
  writeLine (text "HTTP/1.0 " ++ strNumber (toInteger code) ++ text " " ++ reason code) ++
    (writeLine (text "Content-Type: " ++ contentType) ++
      (writeLine (text "Content-Length: " ++ decimal body.length) ++
        (writeLine (text "Connection: close") ++
          (writeLine (text "Access-Control-Allow-Origin: *") ++
            (writeLine (text "Access-Control-Allow-Methods: GET, POST, OPTIONS") ++
              (writeLine (text "Access-Control-Allow-Headers: Content-Type") ++
                (extra ++ ([13, 10] ++ body))))))))

/-- A response that the server sends itself. -/
def plainResponse (code : ℤ) (body : List UInt8) : List UInt8 :=
  response (ofInt code) (text "text/plain") body []

/-- The value of a handler that is an answer: a status, a content type, a body, and headers if
there are any. -/
inductive IsAnswer (result : Tree) (code : BitVec 64) (contentType body : List UInt8) :
    List UInt8 → Prop
  | plain : result.elements = [.number code, .string contentType, .string body] →
      IsAnswer result code contentType body []
  | noExtra {more : List Tree} :
      result.elements = .number code :: .string contentType :: .string body :: .nil :: more →
      IsAnswer result code contentType body []
  | extra {more : List Tree} {headers : List UInt8} :
      result.elements =
        .number code :: .string contentType :: .string body :: .string headers :: more →
      IsAnswer result code contentType body headers

/-- The value is an answer. -/
def Usable (result : Tree) : Prop :=
  ∃ code contentType body extra, IsAnswer result code contentType body extra

/-- The value is no list of three elements, or it is an answer. -/
def Sendable (result : Tree) : Prop := result.elements.length < 3 ∨ Usable result

section

variable (server : Server σ) (connection : List UInt8) (s : σ)

/-- What a connection is meant to get, and the state after it. -/
inductive Answered : List UInt8 → σ → Prop
  | unparsable : parseRequest server.downcase connection = .ok none →
      Answered (plainResponse 400 (text "Bad Request")) s
  | preflight {req : Request} : parseRequest server.downcase connection = .ok (some req) →
      req.method = text "OPTIONS" → Answered (plainResponse 204 []) s
  | noRoute {req : Request} : parseRequest server.downcase connection = .ok (some req) →
      req.method ≠ text "OPTIONS" →
      matchRoute server.regexExtract req.method req.path server.routes = .ok none →
      Answered (plainResponse 404 (text "404 Not Found: " ++ req.path)) s
  | failing {req : Request} {handler : Handler σ} {params : List (List UInt8)} {message : String}
      {s' : σ} : parseRequest server.downcase connection = .ok (some req) →
      req.method ≠ text "OPTIONS" →
      matchRoute server.regexExtract req.method req.path server.routes =
        .ok (some (handler, params)) →
      handler { req with params } s = (.error message, s') →
      Answered (plainResponse 500 (text "Internal Server Error")) s'
  | unusable {req : Request} {handler : Handler σ} {params : List (List UInt8)} {result : Tree}
      {s' : σ} : parseRequest server.downcase connection = .ok (some req) →
      req.method ≠ text "OPTIONS" →
      matchRoute server.regexExtract req.method req.path server.routes =
        .ok (some (handler, params)) →
      handler { req with params } s = (.ok result, s') → ¬Usable result →
      Answered (plainResponse 500 (text "Internal Server Error")) s'
  | handled {req : Request} {handler : Handler σ} {params : List (List UInt8)} {result : Tree}
      {s' : σ} {code : BitVec 64} {contentType body extra : List UInt8} :
      parseRequest server.downcase connection = .ok (some req) →
      req.method ≠ text "OPTIONS" →
      matchRoute server.regexExtract req.method req.path server.routes =
        .ok (some (handler, params)) →
      handler { req with params } s = (.ok result, s') →
      IsAnswer result code contentType body extra →
      Answered (response code contentType body extra) s'

/-- Nothing signals an error for a connection. -/
inductive Fine : σ → Prop
  | unparsable : parseRequest server.downcase connection = .ok none → Fine s
  | preflight {req : Request} : parseRequest server.downcase connection = .ok (some req) →
      req.method = text "OPTIONS" → Fine s
  | noRoute {req : Request} : parseRequest server.downcase connection = .ok (some req) →
      req.method ≠ text "OPTIONS" →
      matchRoute server.regexExtract req.method req.path server.routes = .ok none → Fine s
  | handled {req : Request} {handler : Handler σ} {params : List (List UInt8)} {result : Tree}
      {s' : σ} : parseRequest server.downcase connection = .ok (some req) →
      req.method ≠ text "OPTIONS" →
      matchRoute server.regexExtract req.method req.path server.routes =
        .ok (some (handler, params)) →
      handler { req with params } s = (.ok result, s') → Sendable result → Fine s'

end

/-- The connections that are accepted get what they are meant to get; `httpd-stop` ends the run. -/
inductive Answers (server : Server σ) : List (List UInt8) → σ → List (List UInt8) → Prop
  | nil {s : σ} : Answers server [] s []
  | stopped {connections : List (List UInt8)} {s : σ} : server.running s = false →
      Answers server connections s []
  | cons {connection : List UInt8} {connections outs : List (List UInt8)} {out : List UInt8}
      {s s' : σ} : server.running s = true → Answered server connection s out s' →
      Answers server connections s' outs → Answers server (connection :: connections) s (out :: outs)

/-- Nothing signals an error in a run. -/
inductive Harmless (server : Server σ) : List (List UInt8) → σ → Prop
  | nil {s : σ} : Harmless server [] s
  | stopped {connections : List (List UInt8)} {s : σ} : server.running s = false →
      Harmless server connections s
  | cons {connection : List UInt8} {connections : List (List UInt8)} {s s' : σ} :
      server.running s = true → Fine server connection s s' → Harmless server connections s' →
      Harmless server (connection :: connections) s

/-- `httpd-serve` answers the connections and goes on. -/
def Serves (server : Server σ) (connections : List (List UInt8)) (s : σ) : Prop :=
  ∃ outs, server.serve connections s = (outs, none) ∧ Answers server connections s outs

/-! ## Bodies -/

/-- The body of a request can be read unless its length is no number, or has no end. -/
theorem requestBody_ok_iff {method s : List UInt8} {contentLength : Option (BitVec 64)} :
    (∃ body, requestBody method contentLength s = .ok body) ↔
      (method = text "POST" →
        ∃ x, contentLength = some x ∧ (positive x = true → ∃ n, rounds x = some n)) := by
  unfold requestBody
  split_ifs with hmethod
  · cases contentLength with
    | none => simp [hmethod]
    | some x =>
        cases hpositive : positive x with
        | false => simp [hpositive]
        | true => cases hrounds : rounds x <;> simp [hmethod, hpositive, hrounds]
  · simp [hmethod]

theorem flatten_readBytesLoop {chunks : List (List UInt8)} {chunk : List UInt8} {chunkLen : ℕ}
    (hchunk : chunkLen = 0 → chunk = []) (n : ℕ) (s : List UInt8) :
    (readBytesLoop chunks chunk chunkLen n s).flatten =
      chunks.flatten ++ chunk ++ (s.take n).filter (· ≠ 0) := by
  induction n generalizing chunks chunk chunkLen s with
  | zero =>
      rw [readBytesLoop]
      split_ifs with hlen
      · simp
      · simp [hchunk (by omega)]
  | succ n ih =>
      cases s with
      | nil =>
          rw [readBytesLoop]
          split_ifs with hlen
          · simp
          · simp [hchunk (by omega)]
      | cons b s =>
          have hbyte : ((b :: s).take (n + 1)).filter (· ≠ 0) =
              (if b = 0 then [] else [b]) ++ (s.take n).filter (· ≠ 0) := by
            by_cases hb : b = 0 <;> simp [hb]
          rw [readBytesLoop, hbyte]
          by_cases hlen : 1024 ≤ chunkLen + 1
          · rw [if_pos hlen, ih fun _ => rfl]
            simp
          · rw [if_neg hlen, ih fun hzero => absurd hzero (Nat.succ_ne_zero _)]
            simp

/-- The body is what comes next, without zeros. -/
theorem readBytes_eq (n : ℕ) (s : List UInt8) : readBytes n s = (s.take n).filter (· ≠ 0) := by
  rw [readBytes, flatten_readBytesLoop fun _ => rfl]
  rfl

/-! ## Sending -/

/-- A response whose parts have the right types is sent whole. -/
theorem sendResponse_string (code : BitVec 64) (contentType body extra : List UInt8) :
    sendResponse (.number code) (.string contentType) (.string body) (.string extra) =
      (response code contentType body extra, none) := by
  simp only [sendResponse, written, statusLine, asString, Except.map, response, List.append_nil]

theorem sendResponse_nil (code : BitVec 64) (contentType body : List UInt8) :
    sendResponse (.number code) (.string contentType) (.string body) .nil =
      (response code contentType body [], none) := by
  simp only [sendResponse, written, statusLine, asString, Except.map, response, List.append_nil]

theorem sendText_eq (code : ℤ) (body : List UInt8) :
    sendText code (text "text/plain") body = (plainResponse code body, none) :=
  sendResponse_string _ _ _ _

theorem sendResult_of_isAnswer {result : Tree} {code : BitVec 64}
    {contentType body extra : List UInt8} (h : IsAnswer result code contentType body extra) :
    sendResult result = (response code contentType body extra, none) := by
  unfold sendResult
  cases h with
  | plain heq => rw [heq]; exact sendResponse_string _ _ _ _
  | noExtra heq => rw [heq]; exact sendResponse_nil _ _ _
  | extra heq => rw [heq]; exact sendResponse_string _ _ _ _

/-- Nothing stops the output exactly when every part of it is there. -/
theorem written_stop_iff {parts : List (Except Stop (List UInt8))} :
    (written parts).2 = none ↔ ∀ part ∈ parts, ∃ s, part = .ok s := by
  induction parts with
  | nil => simp [written]
  | cons part parts ih =>
      rw [List.forall_mem_cons]
      cases part with
      | error e => simp [written]
      | ok s => simpa [written] using ih

theorem asString_ok {t : Tree} {s : List UInt8} (h : asString t = .ok s) : t = .string s := by
  cases t <;> simp_all [asString]

/-- What is sent without an error has parts of the right types. -/
theorem of_sendResponse_stop {code contentType body extra : Tree}
    (h : (sendResponse code contentType body extra).2 = none) :
    (∃ x, code = .number x) ∧ (∃ s, contentType = .string s) ∧ (∃ s, body = .string s) ∧
      (extra = .nil ∨ ∃ s, extra = .string s) := by
  have hparts := written_stop_iff.mp h
  simp only [List.forall_mem_cons] at hparts
  obtain ⟨⟨status, hstatus⟩, ⟨type, htype⟩, -, -, -, -, -, ⟨headers, hheaders⟩, -, ⟨b, hb⟩, -⟩ :=
    hparts
  refine ⟨?_, ?_, ⟨b, asString_ok hb⟩, ?_⟩
  · cases code with
    | number x => exact ⟨x, rfl⟩
    | nil | string _ | symbol _ | cons _ _ => cases hstatus
  · cases contentType with
    | string s => exact ⟨s, rfl⟩
    | nil | number _ | symbol _ | cons _ _ => cases htype
  · cases extra with
    | nil => exact .inl rfl
    | string s => exact .inr ⟨s, rfl⟩
    | number _ | symbol _ | cons _ _ => cases hheaders

/-- Too few elements, and the server sends an error of its own. -/
theorem sendResult_of_lt {result : Tree} (h : result.elements.length < 3) :
    sendResult result = (plainResponse 500 (text "Internal Server Error"), none) := by
  unfold sendResult
  rcases helements : result.elements with - | ⟨a, - | ⟨b, - | ⟨c, rest⟩⟩⟩
  · exact sendText_eq _ _
  · exact sendText_eq _ _
  · exact sendText_eq _ _
  · rw [helements] at h
    simp at h
    omega

theorem not_usable_of_lt {result : Tree} (h : result.elements.length < 3) : ¬Usable result := by
  rintro ⟨code, contentType, body, extra, hanswer⟩
  cases hanswer with
  | plain heq | noExtra heq | extra heq =>
      rw [heq] at h
      simp only [List.length_cons] at h
      omega

/-- The value of a handler is sent without an error exactly when it is sendable. -/
theorem sendResult_stop_iff {result : Tree} : (sendResult result).2 = none ↔ Sendable result := by
  constructor
  · intro h
    unfold sendResult at h
    rcases helements : result.elements with - | ⟨a, - | ⟨b, - | ⟨c, - | ⟨d, rest⟩⟩⟩⟩
    all_goals rw [helements] at h
    · exact .inl (by rw [helements]; decide)
    · exact .inl (by rw [helements]; exact Nat.lt_of_sub_eq_succ rfl)
    · exact .inl (by rw [helements]; exact Nat.lt_of_sub_eq_succ rfl)
    · obtain ⟨⟨x, rfl⟩, ⟨t, rfl⟩, ⟨s, rfl⟩, -⟩ := of_sendResponse_stop h
      exact .inr ⟨x, t, s, [], .plain helements⟩
    · obtain ⟨⟨x, rfl⟩, ⟨t, rfl⟩, ⟨s, rfl⟩, rfl | ⟨e, rfl⟩⟩ := of_sendResponse_stop h
      · exact .inr ⟨x, t, s, [], .noExtra helements⟩
      · exact .inr ⟨x, t, s, e, .extra helements⟩
  · rintro (hlt | ⟨code, contentType, body, extra, hanswer⟩)
    · rw [sendResult_of_lt hlt]
    · rw [sendResult_of_isAnswer hanswer]

/-! ## One connection -/

section

variable {server : Server σ} {connection : List UInt8} {s s' : σ}

theorem state_serveOne {out : List UInt8} (h : Answered server connection s out s') :
    (server.serveOne connection s).2 = s' := by
  cases h with
  | unparsable hparse => simp only [Server.serveOne, hparse]
  | preflight hparse hmethod => simp only [Server.serveOne, hparse, if_pos hmethod]
  | noRoute hparse hmethod hmatch =>
      simp only [Server.serveOne, hparse, if_neg hmethod, hmatch]
  | failing hparse hmethod hmatch hhandler | unusable hparse hmethod hmatch hhandler _
  | handled hparse hmethod hmatch hhandler _ =>
      simp only [Server.serveOne, hparse, if_neg hmethod, hmatch, hhandler]

/-- **A connection is answered, and the loop goes on, exactly when nothing signals an error.** -/
theorem answered_iff :
    (∃ out, server.serveOne connection s = ((out, none), s') ∧
      Answered server connection s out s') ↔ Fine server connection s s' := by
  constructor
  · rintro ⟨out, hserve, hanswered⟩
    cases hanswered with
    | unparsable hparse => exact .unparsable hparse
    | preflight hparse hmethod => exact .preflight hparse hmethod
    | noRoute hparse hmethod hmatch => exact .noRoute hparse hmethod hmatch
    | failing hparse hmethod hmatch hhandler =>
        simp [Server.serveOne, hparse, hmethod, hmatch, hhandler] at hserve
    | unusable hparse hmethod hmatch hhandler _ | handled hparse hmethod hmatch hhandler _ =>
        simp only [Server.serveOne, hparse, if_neg hmethod, hmatch, hhandler, Prod.mk.injEq,
          and_true] at hserve
        have hstop := sendResult_stop_iff.mp (congrArg Prod.snd hserve)
        exact .handled hparse hmethod hmatch hhandler hstop
  · intro hfine
    cases hfine with
    | unparsable hparse =>
        refine ⟨_, ?_, .unparsable hparse⟩
        simp only [Server.serveOne, hparse, sendError, sendText_eq]
    | preflight hparse hmethod =>
        refine ⟨_, ?_, .preflight hparse hmethod⟩
        simp only [Server.serveOne, hparse, if_pos hmethod, sendText_eq]
    | noRoute hparse hmethod hmatch =>
        refine ⟨_, ?_, .noRoute hparse hmethod hmatch⟩
        simp only [Server.serveOne, hparse, if_neg hmethod, hmatch, send404, sendText_eq]
    | handled hparse hmethod hmatch hhandler hsendable =>
        rcases hsendable with hlt | ⟨code, contentType, body, extra, hanswer⟩
        · refine ⟨_, ?_, .unusable hparse hmethod hmatch hhandler (not_usable_of_lt hlt)⟩
          simp only [Server.serveOne, hparse, if_neg hmethod, hmatch, hhandler,
            sendResult_of_lt hlt]
        · refine ⟨_, ?_, .handled hparse hmethod hmatch hhandler hanswer⟩
          simp only [Server.serveOne, hparse, if_neg hmethod, hmatch, hhandler,
            sendResult_of_isAnswer hanswer]

end

/-! ## Runs -/

section

variable {server : Server σ} {connection : List UInt8} {connections : List (List UInt8)} {s : σ}

theorem serve_of_not_running (h : server.running s = false) :
    server.serve connections s = ([], none) := by
  cases connections with
  | nil => rfl
  | cons connection connections => rw [Server.serve, h, if_neg Bool.false_ne_true]

/-- A run goes on after its first connection. -/
theorem serve_cons_iff {outs : List (List UInt8)} (hrunning : server.running s = true) :
    server.serve (connection :: connections) s = (outs, none) ↔
      ∃ out s' outs', server.serveOne connection s = ((out, none), s') ∧
        server.serve connections s' = (outs', none) ∧ outs = out :: outs' := by
  rw [Server.serve, if_pos hrunning]
  rcases server.serveOne connection s with ⟨⟨out, - | e⟩, s'⟩
  · constructor
    · intro h
      obtain ⟨rfl, hstop⟩ := Prod.mk.inj h
      exact ⟨out, s', _, rfl, Prod.ext rfl hstop, rfl⟩
    · rintro ⟨out', s'', outs', hone, hrest, rfl⟩
      obtain ⟨hout, rfl⟩ := Prod.mk.inj hone
      obtain rfl := (Prod.mk.inj hout).1
      simp only [hrest]
  · simp

theorem serves_iff_harmless : Serves server connections s ↔ Harmless server connections s := by
  induction connections generalizing s with
  | nil => exact ⟨fun _ => .nil, fun _ => ⟨[], rfl, .nil⟩⟩
  | cons connection connections ih =>
      cases hrunning : server.running s with
      | false =>
          exact iff_of_true ⟨[], serve_of_not_running hrunning, .stopped hrunning⟩
            (.stopped hrunning)
      | true =>
          constructor
          · rintro ⟨outs, hserve, hanswers⟩
            obtain ⟨out, s', outs', hone, hrest, rfl⟩ := (serve_cons_iff hrunning).mp hserve
            cases hanswers with
            | cons _ hanswered hanswers =>
                obtain rfl : s' = _ := (congrArg Prod.snd hone).symm.trans (state_serveOne hanswered)
                exact .cons hrunning (answered_iff.mp ⟨out, hone, hanswered⟩)
                  (ih.mp ⟨outs', hrest, hanswers⟩)
          · intro hharmless
            cases hharmless with
            | stopped hnot => exact absurd (hnot.symm.trans hrunning) Bool.false_ne_true
            | cons _ hfine hharmless =>
                obtain ⟨out, hone, hanswered⟩ := answered_iff.mpr hfine
                obtain ⟨outs, hrest, hanswers⟩ := ih.mpr hharmless
                exact ⟨out :: outs, (serve_cons_iff hrunning).mpr ⟨_, _, _, hone, hrest, rfl⟩,
                  .cons hrunning hanswered hanswers⟩

end

/-- A server with one route, whose handler signals an error. -/
def failingServer : Server Unit where
  routes := [⟨text "GET", text "/", fun _ s => (.error "no", s)⟩]
  running _ := true
  regexExtract _ path := .ok (some [path])
  downcase := id

end Lush.Httpd
