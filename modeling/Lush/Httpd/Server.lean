import Lush.Text.Sexp

/-!
# The HTTP server

`httpd-serve` accepts one connection after the other.  It reads a request, looks for a route,
calls the handler and sends a response.  Nothing is caught on the way: where one of the functions
signals an error, the loop is left.

Connections are the bytes that they deliver before their end.  Regular expressions and `downcase`
are parameters, and so are the handlers, with what they work on.
-/

namespace Lush.Httpd

open Text (ascii decimal ofInt strVal strNumber)

/-- The bytes of a text. -/
def text (s : String) : List UInt8 := s.toList.map ascii

/-- How the loop is left. -/
inductive Stop
  | error (message : String)
  /-- It goes on in a loop that does not end. -/
  | loop
deriving DecidableEq

/-! ## Requests -/

/-- The bytes are taken until a line feed comes, or the end. -/
def readLineLoop (chars : List UInt8) (gotData : Bool) :
    List UInt8 → Option (List UInt8) × List UInt8
  | [] => (if gotData then some chars else none, [])
  | b :: s =>
      if b = 13 then readLineLoop chars true s
      else if b = 10 then (some chars, s)
      else
        -- `(chr 0)` is the empty string
        readLineLoop (chars ++ if b = 0 then [] else [b]) true s

/-- `_httpd-read-line`. -/
def readLine (s : List UInt8) : Option (List UInt8) × List UInt8 := readLineLoop [] false s

/-- `(index c s)`, for one character. -/
def index (c : UInt8) (s : List UInt8) : Option ℕ := (s.findIdx? (· = c)).map (· + 1)

/-- `(left s n)`. -/
def left (s : List UInt8) (n : ℕ) : List UInt8 := s.take n

/-- `(mid s n)`. -/
def mid (s : List UInt8) (n : ℕ) : List UInt8 := s.drop (n - 1)

/-- `_httpd-parse-request-line`: the method, the path and the query. -/
def parseRequestLine (line : List UInt8) : Option (List UInt8 × List UInt8 × List UInt8) :=
  match index (ascii ' ') line with
  | none => none
  | some sp1 =>
      let method := left line (sp1 - 1)
      let rest := mid line (sp1 + 1)
      match index (ascii ' ') rest with
      | none => some (method, [], [])
      | some sp2 =>
          let uri := left rest (sp2 - 1)
          match index (ascii '?') uri with
          | none => some (method, uri, [])
          | some qpos => some (method, left uri (qpos - 1), mid uri (qpos + 1))

theorem length_readLineLoop_lt {chars line s rest : List UInt8} {gotData : Bool}
    (h : readLineLoop chars gotData s = (some line, rest)) (hs : s ≠ []) :
    rest.length < s.length := by
  induction s generalizing chars gotData with
  | nil => exact absurd rfl hs
  | cons b s ih =>
      have hrest : ∀ chars, readLineLoop chars true s = (some line, rest) →
          rest.length < (b :: s).length := by
        intro chars hloop
        rcases eq_or_ne s [] with rfl | hne
        · rw [← (Prod.mk.inj hloop).2]
          exact Nat.zero_lt_one
        · exact (ih hloop hne).trans (Nat.lt_succ_self _)
      rw [readLineLoop] at h
      split_ifs at h
      · exact hrest _ h
      · rw [← (Prod.mk.inj h).2]
        exact Nat.lt_succ_self _
      · exact hrest _ h
      · exact hrest _ h

/-- A line takes at least one byte. -/
theorem length_readLine_lt {line s rest : List UInt8} (h : readLine s = (some line, rest)) :
    rest.length < s.length := by
  refine length_readLineLoop_lt h ?_
  rintro rfl
  cases (Prod.mk.inj h).1

section

variable (downcase : List UInt8 → List UInt8)

/-- The header in a line, if it has a colon. -/
def parseHeader (line : List UInt8) : Option (List UInt8 × List UInt8) :=
  match index (ascii ':') line with
  | none => none
  | some colon =>
      let name := downcase (left line (colon - 1))
      let value := mid line (colon + 1)
      some (name, if value ≠ [] ∧ left value 1 = [ascii ' '] then mid value 2 else value)

/-- `_httpd-read-headers`. -/
def readHeaders (s : List UInt8) : List (List UInt8 × List UInt8) × List UInt8 :=
  match h : readLine s with
  | (none, rest) => ([], rest)
  | (some line, rest) =>
      if line = [] then ([], rest)
      else
        have : rest.length < s.length := length_readLine_lt h
        let r := readHeaders rest
        ((parseHeader downcase line).toList ++ r.1, r.2)
termination_by s.length

end

/-- `(> x 0)`. -/
def positive (x : BitVec 64) : Bool :=
  !Binary64.negative x &&
    match Binary64.magnitude x with
    | some q => decide (0 < q)
    | none => decide (Binary64.fractionField x = 0)

/-- The number of rounds of `(for (i 1 x) ..)`, unless it has no end: `i` stays at `2 ^ 53`. -/
def rounds (x : BitVec 64) : Option ℕ :=
  match Binary64.magnitude x with
  | some q => if q < 2 ^ 53 then some ⌊q⌋₊ else none
  | none => none

/-- The loop of `_httpd-read-bytes`: the chunks, and the chunk that has begun. -/
def readBytesLoop (chunks : List (List UInt8)) (chunk : List UInt8) (chunkLen : ℕ) :
    ℕ → List UInt8 → List (List UInt8)
  | 0, _ | _ + 1, [] => if 0 < chunkLen then chunks ++ [chunk] else chunks
  | n + 1, b :: s =>
      let chunk := chunk ++ if b = 0 then [] else [b]
      if 1024 ≤ chunkLen + 1 then readBytesLoop (chunks ++ [chunk]) [] 0 n s
      else readBytesLoop chunks chunk (chunkLen + 1) n s

/-- `_httpd-read-bytes`. -/
def readBytes (n : ℕ) (s : List UInt8) : List UInt8 := (readBytesLoop [] [] 0 n s).flatten

/-- The request alist. -/
structure Request where
  method : List UInt8
  path : List UInt8
  query : List UInt8
  headers : List (List UInt8 × List UInt8)
  body : List UInt8
  params : List (List UInt8)
deriving DecidableEq

/-- `(alist-get key headers)`. -/
def alistGet (key : List UInt8) (headers : List (List UInt8 × List UInt8)) : Option (List UInt8) :=
  (headers.find? fun pair => pair.1 = key).map Prod.snd

/-- The body of a request, for what `content-length` is. -/
def requestBody (method : List UInt8) (contentLength : Option (BitVec 64)) (s : List UInt8) :
    Except Stop (List UInt8) :=
  if method = text "POST" then
    match contentLength with
    | none => .error (.error "Cannot rank these objects")
    | some x =>
        if positive x then
          match rounds x with
          | none => .error .loop
          | some n => .ok (readBytes n s)
        else .ok []
  else .ok []

/-- `httpd-parse-request`. -/
def parseRequest (downcase : List UInt8 → List UInt8) (s : List UInt8) :
    Except Stop (Option Request) :=
  match readLine s with
  | (none, _) => .ok none
  | (some line, rest) =>
      if line = [] then .ok none
      else
        match parseRequestLine line with
        | none => .ok none
        | some (method, path, query) => do
            let headers := readHeaders downcase rest
            let contentLength :=
              match alistGet (text "content-length") headers.1 with
              | none => some (ofInt 0)
              | some cl => strVal cl
            let body ← requestBody method contentLength headers.2
            .ok (some ⟨method, path, query, headers.1, body, []⟩)

/-! ## Responses -/

/-- `_httpd-reason`. -/
def reason (code : BitVec 64) : List UInt8 :=
  if code = ofInt 200 then text "OK"
  else if code = ofInt 201 then text "Created"
  else if code = ofInt 204 then text "No Content"
  else if code = ofInt 301 then text "Moved Permanently"
  else if code = ofInt 302 then text "Found"
  else if code = ofInt 400 then text "Bad Request"
  else if code = ofInt 403 then text "Forbidden"
  else if code = ofInt 404 then text "Not Found"
  else if code = ofInt 405 then text "Method Not Allowed"
  else if code = ofInt 500 then text "Internal Server Error"
  else text "OK"

/-- `(real) AINTEGER(i)`. -/
def toInteger (x : BitVec 64) : BitVec 64 :=
  match Binary64.magnitude x with
  | some q =>
      if q < 2 ^ 63 then ofInt (if Binary64.negative x then -⌊q⌋ else ⌊q⌋) else ofInt (-2 ^ 63)
  | none => ofInt (-2 ^ 63)

/-- `_httpd-write-line`. -/
def writeLine (s : List UInt8) : List UInt8 := s ++ [13, 10]

/-- What is written until an error is signalled. -/
def written : List (Except Stop (List UInt8)) → List UInt8 × Option Stop
  | [] => ([], none)
  | .ok s :: rest => let r := written rest; (s ++ r.1, r.2)
  | .error e :: _ => ([], some e)

/-- `(sprintf "HTTP/1.0 %d %s" code (_httpd-reason code))`. -/
def statusLine : Tree → Except Stop (List UInt8)
  | .number x => .ok (text "HTTP/1.0 " ++ strNumber (toInteger x) ++ text " " ++ reason x)
  | _ => .error (.error "not a number")

/-- A string in a line. -/
def asString : Tree → Except Stop (List UInt8)
  | .string s => .ok s
  | _ => .error (.error "not a string")

/-- `httpd-send-response`. -/
def sendResponse (code contentType body extra : Tree) : List UInt8 × Option Stop :=
  written [
    (statusLine code).map writeLine,
    (asString contentType).map fun s => writeLine (text "Content-Type: " ++ s),
    (asString body).map fun s => writeLine (text "Content-Length: " ++ decimal s.length),
    .ok (writeLine (text "Connection: close")),
    .ok (writeLine (text "Access-Control-Allow-Origin: *")),
    .ok (writeLine (text "Access-Control-Allow-Methods: GET, POST, OPTIONS")),
    .ok (writeLine (text "Access-Control-Allow-Headers: Content-Type")),
    match extra with
      | .nil => .ok []
      | extra => asString extra,
    .ok [13, 10],
    asString body]

/-- A response of the server itself. -/
def sendText (code : ℤ) (contentType body : List UInt8) : List UInt8 × Option Stop :=
  sendResponse (.number (ofInt code)) (.string contentType) (.string body) (.string [])

/-- `httpd-send-404`. -/
def send404 (path : List UInt8) : List UInt8 × Option Stop :=
  sendText 404 (text "text/plain") (text "404 Not Found: " ++ path)

/-- `httpd-send-error`. -/
def sendError (code : ℤ) (message : List UInt8) : List UInt8 × Option Stop :=
  sendText code (text "text/plain") message

/-! ## The loop -/

variable {σ : Type}

/-- A handler returns a value or signals an error. -/
abbrev Handler (σ : Type) := Request → σ → Except String Tree × σ

structure Route (σ : Type) where
  method : List UInt8
  pattern : List UInt8
  handler : Handler σ

/-- A server. -/
structure Server (σ : Type) where
  routes : List (Route σ)
  /-- `(server "running")`. -/
  running : σ → Bool
  /-- `regex-extract`. -/
  regexExtract : List UInt8 → List UInt8 → Except Stop (Option (List (List UInt8)))
  downcase : List UInt8 → List UInt8

/-- `_httpd-match-route`. -/
def matchRoute
    (regexExtract : List UInt8 → List UInt8 → Except Stop (Option (List (List UInt8))))
    (method path : List UInt8) :
    List (Route σ) → Except Stop (Option (Handler σ × List (List UInt8)))
  | [] => .ok none
  | route :: routes =>
      if route.method = method then do
        let params ← regexExtract (text "^" ++ route.pattern ++ text "$") path
        match params with
        | some params => .ok (some (route.handler, params))
        | none => matchRoute regexExtract method path routes
      else matchRoute regexExtract method path routes

/-- What is sent for the value of a handler. -/
def sendResult (result : Tree) : List UInt8 × Option Stop :=
  match result.elements with
  | [code, contentType, body] => sendResponse code contentType body (.string [])
  | code :: contentType :: body :: extra :: _ => sendResponse code contentType body extra
  | _ => sendError 500 (text "Internal Server Error")

namespace Server

variable (server : Server σ)

/-- A round of `httpd-serve`: what is sent, and whether the loop is left. -/
def serveOne (connection : List UInt8) (s : σ) : (List UInt8 × Option Stop) × σ :=
  match parseRequest server.downcase connection with
  | .error e => (([], some e), s)
  | .ok none => (sendError 400 (text "Bad Request"), s)
  | .ok (some req) =>
      if req.method = text "OPTIONS" then (sendText 204 (text "text/plain") [], s)
      else
        match matchRoute server.regexExtract req.method req.path server.routes with
        | .error e => (([], some e), s)
        | .ok none => (send404 req.path, s)
        | .ok (some (handler, params)) =>
            match handler { req with params } s with
            | (.error message, s) => (([], some (.error message)), s)
            | (.ok result, s) => (sendResult result, s)

/-- `httpd-serve`, for the connections that come: what is sent to those that are accepted, and how
the loop is left if it is. -/
def serve : List (List UInt8) → σ → List (List UInt8) × Option Stop
  | [], _ => ([], none)
  | connection :: connections, s =>
      if server.running s then
        match server.serveOne connection s with
        | ((out, some e), _) => ([out], some e)
        | ((out, none), s) =>
            let r := serve connections s
            (out :: r.1, r.2)
      else ([], none)

end Server

end Lush.Httpd
