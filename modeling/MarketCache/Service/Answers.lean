import MarketCache.Http.Form
import MarketCache.Http.MediaType
import MarketCache.Service.ApiError
import MarketCache.Service.Basic
import MarketCache.Service.Endpoint
import MarketCache.Service.Requests
import MarketCache.Service.Responses

/-!
# Answers of the service

What every endpoint answers. A request is first read, and refused if it is not what the
endpoint expects; then it is carried out.

Main definitions:
* `Rejection`: why a request cannot be read.
* `Service.answer`: the answer of an endpoint, and the service afterwards.
-/

namespace MarketCache

open Http (Answer Content Form Request)

/-- Why a request cannot be read. -/
inductive Rejection where
  /-- The query lacks a field or has it twice. -/
  | query (fault : Http.FormFault)
  /-- The path is no UTF-8 behind its escapes. -/
  | path
  /-- The body is not said to be JSON. -/
  | mediaType
  /-- The body is too long. -/
  | tooLong
  /-- The body is no JSON. -/
  | malformedBody
  /-- The body is JSON of another kind. -/
  | unexpectedBody
deriving DecidableEq, Repr

namespace Rejection

/-- The status code of the answer. -/
def status : Rejection → Nat
  | .query _ | .path | .malformedBody => 400
  | .mediaType => 415
  | .tooLong => 413
  | .unexpectedBody => 422

/-- The text of the answer. -/
def message : Rejection → String
  | .query fault => "Failed to deserialize query string: " ++ fault.message
  | .path => "Invalid URL: Invalid UTF-8 in `key`"
  | .mediaType => "Expected request with `Content-Type: application/json`"
  | .tooLong => "Failed to buffer the request body: length limit exceeded"
  | .malformedBody => "Failed to parse the request body as JSON"
  | .unexpectedBody => "Failed to deserialize the JSON body into the target type"

/-- The answer to the request. -/
def answer (r : Rejection) : Answer := ⟨r.status, .text r.message⟩

end Rejection

/-- The answer to a request that cannot be carried out. -/
def ApiError.answer (e : ApiError) : Answer := ⟨e.status, .json e.body⟩

/-- The most bytes that a body may have. -/
def bodyLimit : Nat := 2097152

/-- The parameters in a form. -/
def NewsParams.ofForm (form : Form) : Except Http.FormFault NewsParams := do
  let from? ← form.optional "from"
  let to? ← form.optional "to"
  let symbols ← form.required "symbols"
  .ok ⟨symbols, from?, to?⟩

/-- The parameters in a form. -/
def QuoteParams.ofForm (form : Form) : Except Http.FormFault QuoteParams :=
  (form.required "symbols").map QuoteParams.mk

/-- The query that the parameters of a request for a resource name. -/
def Resource.queryOf (r : Resource) (query : List Char) : Except Rejection LogicalQuery :=
  let form := Http.Form.decode query
  let found :=
    match r with
    | .news => (NewsParams.ofForm form).map NewsParams.toQuery
    | .quotes => (QuoteParams.ofForm form).map QuoteParams.toQuery
  found.mapError Rejection.query

/-- The notification in the body of a request. Whatever follows it does not count. -/
def ThrottleRequest.ofRequest (r : Request) : Except Rejection ThrottleRequest :=
  let isJson := ((r.headers.value? "content-type").bind Http.MediaType.ofText?).any (·.isJson)
  if !isJson then .error .mediaType
  else if bodyLimit < r.body.length then .error .tooLong
  else
    match ThrottleRequest.shape.read r.body with
    | .ok (t, _) => .ok t
    | .error .mismatched => .error .unexpectedBody
    | .error _ => .error .malformedBody

/-- The key behind the escapes of a path. -/
def throttleKeyOf (segment : List Char) : Except Rejection String :=
  match ofUtf8? (Http.Percent.decode (Text.Utf8.encode segment)) with
  | some key => .ok key
  | none => .error .path

namespace Service

variable {σ π : Type} [DurableStore σ] [MarketData π]

/-- An answer in JSON to a request that was carried out. -/
def success (value : Json) : Answer := ⟨200, .json value⟩

/-- The answer to a query, which has to have a symbol. -/
def answerLookup (s : Service σ π) (r : Resource) (q : LogicalQuery) (now : Instant) :
    Answer × Service σ π :=
  if q.isEmpty then
    ((ApiError.invalidRequest "At least one symbol is required").answer, s)
  else
    match s.lookup r q now with
    | (.ok l, s) => (success l.toJson, s)
    | (.error causes, s) => ((ApiError.ofCauses causes).answer, s)

/-- Drops the hot entry of a query. -/
def answerInvalidate (s : Service σ π) (r : Resource) (q : LogicalQuery) :
    Answer × Service σ π :=
  let (removed, c) := (s.cache r).invalidate q
  (success (Response.invalidated (c.keyFor q) removed), s.setCache c r)

/-- Writes all that waits. There is no answer if the store breaks down. -/
def answerFlush (s : Service σ π) (now : Instant) : Answer × Service σ π :=
  match s.flush now with
  | (some (news, quotes), s) => (success (Response.flushed news quotes), s)
  | (none, s) => (⟨500, .nothing⟩, s)

/-- Asks the gate about a notification. -/
def answerThrottle (s : Service σ π) (t : ThrottleRequest) (now : Instant) :
    Answer × Service σ π :=
  match t.fault? with
  | some fault => ((ApiError.invalidRequest fault).answer, s)
  | none =>
    let key := throttleKey t.event t.recipient
    let (fire, gate) := s.gate.tryFire key defaultThrottleWindow now
    (success (Response.throttled key fire defaultThrottleWindow), { s with gate })

/-- Lets the gate forget a key, if it has one. -/
def answerClear (s : Service σ π) (key : String) : Answer × Service σ π :=
  if s.gate.contains key then
    (success (Response.cleared key), { s with gate := s.gate.clear key })
  else ((ApiError.notFound key).answer, s)

/-- The answer of an endpoint to a request that it takes, at `now`. -/
def answer (s : Service σ π) (e : Endpoint) (r : Request) (now : Instant) :
    Answer × Service σ π :=
  match e with
  | .lookup resource =>
    match resource.queryOf r.target.query with
    | .ok q => s.answerLookup resource q now
    | .error e => (e.answer, s)
  | .invalidate resource =>
    match resource.queryOf r.target.query with
    | .ok q => s.answerInvalidate resource q
    | .error e => (e.answer, s)
  | .flush => s.answerFlush now
  | .throttle =>
    match ThrottleRequest.ofRequest r with
    | .ok t => s.answerThrottle t now
    | .error e => (e.answer, s)
  | .clearThrottle segment =>
    match throttleKeyOf segment with
    | .ok key => s.answerClear key
    | .error e => (e.answer, s)
  | .stats => (success (Response.stats s.news.stats s.quotes.stats s.gate.size), s)
  | .health => (success (Response.healthy now), s)

end Service

end MarketCache
