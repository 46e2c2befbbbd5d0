import MarketCache.Json.Basic

/-!
# Errors of the service

What clients are told when a request cannot be answered.
-/

namespace MarketCache

/-- Why a request cannot be answered. -/
inductive ApiError where
  | invalidRequest (reason : String)
  | notFound (what : String)
  /-- The provider failed. -/
  | provider (reason : String)
  | internal (reason : String)
deriving DecidableEq, Repr

namespace ApiError

/-- The text of an error. -/
def message : ApiError → String
  | .invalidRequest reason => "Invalid request: " ++ reason
  | .notFound what => "Not found: " ++ what
  | .provider reason => "Upstream error: " ++ reason
  | .internal reason => "Internal error: " ++ reason

/-- The status code of the answer. -/
def status : ApiError → Nat
  | .invalidRequest _ => 400
  | .notFound _ => 404
  | .provider _ => 502
  | .internal _ => 500

/-- The body of the answer. -/
def body (e : ApiError) : Json := .object [("error", .string e.message)]

/-- The failure of the provider whose causes are given, the root first and each later one
    behind what it led to. -/
def ofCauses (causes : List String) : ApiError :=
  .provider (String.intercalate ": " causes.reverse)

end ApiError

end MarketCache
