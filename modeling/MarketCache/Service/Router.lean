import MarketCache.Service.Answers

/-!
# Routing

From a request to the reply. The path selects an endpoint, and the endpoint takes the request
if its method fits. Scripts of any origin may ask: every reply says so, and the question
beforehand what is permitted is answered for every path, known or not.

Main definition: `Service.respond`.
-/

namespace MarketCache

open Http (Answer Headers Reply Request)

namespace Service

/-- Every origin may read the reply. -/
def anyOrigin : Headers := [("access-control-allow-origin", "*")]

/-- Every method and every header is permitted. -/
def anyRequest : Headers :=
  [("access-control-allow-methods", "*"), ("access-control-allow-headers", "*")]

/-- The methods of an endpoint, for a request that it does not take. -/
def allowance (e : Endpoint) : Headers := [("allow", e.allowed)]

variable {σ π : Type} [DurableStore σ] [MarketData π]

/-- The reply to a request at `now`, and the service afterwards. -/
def respond (s : Service σ π) (r : Request) (now : Instant) : Reply × Service σ π :=
  let endpoint := Endpoint.ofPath? r.target.path
  if r.method = .options then
    let headers := (endpoint.map allowance).getD []
    ((⟨200, .nothing⟩ : Answer).toReply (headers ++ anyOrigin ++ anyRequest), s)
  else
    match endpoint with
    | none => ((⟨404, .nothing⟩ : Answer).toReply anyOrigin, s)
    | some e =>
      if e.accepts r.method then
        let (answer, s) := s.answer e r now
        let reply := answer.toReply anyOrigin
        (if r.method = .head then reply.headersOnly else reply, s)
      else ((⟨405, .nothing⟩ : Answer).toReply (allowance e ++ anyOrigin), s)

/-- The reply to a request at `now`, and the service once the passes in the background that the
    request started have ended. -/
def serve (s : Service σ π) (r : Request) (now : Instant) : Reply × Service σ π :=
  let (reply, s) := s.respond r now
  (reply, s.runPasses now)

end Service

end MarketCache
