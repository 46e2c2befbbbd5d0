import MarketCache.Http.Message
import MarketCache.Provider.Basic
import MarketCache.Text.Digits

/-!
# Endpoints

The paths that the service knows. Every one of them is there for one method, and a path is
spelled in one way only.

Main definitions:
* `Endpoint.ofPath?`: the endpoint of a path.
* `Endpoint.accepts`, `Endpoint.allowed`: the methods of an endpoint.
-/

namespace MarketCache

open Http (Method)

/-- What can be asked of the service. -/
inductive Endpoint where
  /-- `/news`, `/quotes`: the answer to a query. -/
  | lookup (r : Resource)
  /-- `/cache/news`, `/cache/quotes`: drops a hot entry. -/
  | invalidate (r : Resource)
  /-- `/cache/flush`: writes all that waits. -/
  | flush
  /-- `/throttle`: asks the gate. -/
  | throttle
  /-- `/throttle/` and a key with its escapes: the gate forgets the key. -/
  | clearThrottle (key : List Char)
  /-- `/stats`: the counters. -/
  | stats
  /-- `/health`: whether the service is up. -/
  | health
deriving DecidableEq, Repr

namespace Endpoint

/-- The endpoint of a path. -/
def ofPath? (path : List Char) : Option Endpoint :=
  match Text.fields '/' path with
  | [[], first] =>
    match String.ofList first with
    | "news" => some (.lookup .news)
    | "quotes" => some (.lookup .quotes)
    | "throttle" => some .throttle
    | "stats" => some .stats
    | "health" => some .health
    | _ => none
  | [[], first, second] =>
    match String.ofList first, String.ofList second with
    | "cache", "news" => some (.invalidate .news)
    | "cache", "quotes" => some (.invalidate .quotes)
    | "cache", "flush" => some .flush
    | "throttle", "" => none
    | "throttle", _ => some (.clearThrottle second)
    | _, _ => none
  | _ => none

/-- The method of an endpoint. -/
def method : Endpoint → Method
  | .lookup _ | .stats | .health => .get
  | .flush | .throttle => .post
  | .invalidate _ | .clearThrottle _ => .delete

/-- Whether an endpoint takes a method. What can be read can also be asked for its headers
    alone. -/
def accepts (e : Endpoint) (m : Method) : Bool := m == e.method || (m == .head && e.method == .get)

/-- The methods that an endpoint takes, with commas between them. -/
def allowed (e : Endpoint) : String :=
  match e.method with
  | .get => "GET,HEAD"
  | m => m.name

end Endpoint

end MarketCache
