import MarketCache.Json.Basic
import MarketCache.Query.Basic

/-!
# Providers of market data

Whoever answers the queries that the caches cannot. Calls are rare and may fail.
-/

namespace MarketCache

/-- The kinds of market data. -/
inductive Resource where
  | news
  | quotes
deriving DecidableEq, Repr

/-- The name of a kind of market data. -/
def Resource.name : Resource → String
  | .news => "news"
  | .quotes => "quotes"

/-- A provider whose state is a `π`. A call that fails gives its causes, the root first and
    each later one in whose words the former was passed on. -/
class MarketData (π : Type) where
  fetch : Resource → LogicalQuery → π → Except (List String) Json × π

end MarketCache
