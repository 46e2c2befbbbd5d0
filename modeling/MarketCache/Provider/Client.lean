import MarketCache.Http.Form
import MarketCache.Http.Url
import MarketCache.Json.Record
import MarketCache.Provider.Basic

/-!
# Provider client

A provider behind a server that answers in JSON. A call asks for the resource below the base
address, with the symbols, the filters that are set and the API key as parameters.

Main definitions:
* `ProviderClient.params`, `ProviderClient.address?`: what is asked.
* `ProviderClient.interpret`: what the outcome of an exchange amounts to.
-/

namespace MarketCache

/-- How to reach the provider. -/
structure ProviderClient where
  /-- Without slashes at its end. -/
  baseUrl : String
  apiKey : Option String
deriving DecidableEq, Repr

/-- How an exchange with the server went. -/
inductive Exchange where
  /-- The server was not reached, or broke off. -/
  | failed
  | answered (status : Nat) (body : Bytes)
deriving DecidableEq, Repr

/-- Why a call failed. -/
inductive ProviderError where
  /-- There was no answer from this address. -/
  | unanswered (url : String)
  /-- The status code of the answer tells of an error. -/
  | rejected (r : Resource)
  /-- The answer is no JSON. -/
  | malformed (r : Resource)
deriving DecidableEq, Repr

/-- The text of an error. -/
def ProviderError.message : ProviderError → String
  | .unanswered url => "Request to " ++ url ++ " failed"
  | .rejected r => "Upstream rejected " ++ r.name ++ " request"
  | .malformed r => "Upstream returned invalid JSON for " ++ r.name

namespace ProviderClient

/-- A client for the server at a base address. -/
def ofBase (base : String) (apiKey : Option String) : ProviderClient :=
  ⟨String.ofList (base.toList.reverse.dropWhile (· == '/')).reverse, apiKey⟩

/-- The parameters of a call. A filter that is not set is left out. -/
def params (c : ProviderClient) (q : LogicalQuery) : Http.Form :=
  ("symbols", q.joinedSymbols) ::
    (q.filters.filterMap fun f => f.value.map (f.name, ·)) ++
    (c.apiKey.map ("token", ·)).toList

/-- The address of a resource, as it is written. -/
def url (c : ProviderClient) (r : Resource) : String := c.baseUrl ++ "/" ++ r.name

/-- The address that is asked, if it is one. -/
def address? (c : ProviderClient) (r : Resource) (q : LogicalQuery) : Option Http.Url :=
  (Http.Url.ofText? (c.url r)).map (·.withQuery (Http.Form.encode (c.params q)))

/-- Whether an answer with this status code has no body, whatever follows. -/
def isBodiless (status : Nat) : Bool := status == 101 || status == 204 || status == 304

/-- What an exchange amounts to: the JSON in the answer, unless there is none or it tells of an
    error. -/
def interpret (c : ProviderClient) (r : Resource) : Exchange → Except ProviderError Json
  | .failed => .error (.unanswered (c.url r))
  | .answered status body =>
    if 400 ≤ status ∧ status < 600 then .error (.rejected r)
    else
      match Json.parse Json.depthLimit (if isBodiless status then [] else body) with
      | .ok value => .ok value
      | .error _ => .error (.malformed r)

end ProviderClient

end MarketCache
