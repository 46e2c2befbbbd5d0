import MarketCache.Cache.Settings
import MarketCache.Text.Blank
import MarketCache.Text.Utf8

/-!
# Configuration

What the service reads from its environment. A number that is missing, misspelt or too large
leaves its default in force, and so does a text that is blank or no text at all; no variable
has a bearing on any other.

Main definitions:
* `Config.number?`, `Config.text?`: the values of a variable.
* `Config.ofEnvironment`: the configuration.
-/

namespace MarketCache

/-- The settings of the service. -/
structure Config where
  serverPort : UInt16
  newsPollingInterval : UInt64
  newsFlushInterval : UInt64
  quotePollingInterval : UInt64
  quoteFlushInterval : UInt64
  durableTtl : UInt64
  /-- Where the store of records lives; without it the durable tier is kept in memory. -/
  durablePath : Option String
  providerBaseUrl : String
  providerApiKey : Option String
  /-- The period of the maintenance task in seconds; there is none for zero. -/
  maintenanceFlushInterval : UInt64
deriving DecidableEq, Repr

namespace Config

/-- What is in force where the environment says nothing. -/
def default : Config where
  serverPort := 3000
  newsPollingInterval := 300
  newsFlushInterval := 60
  quotePollingInterval := 60
  quoteFlushInterval := 60
  durableTtl := CacheSettings.defaultDurableTtl
  durablePath := none
  providerBaseUrl := "http://127.0.0.1:9000"
  providerApiKey := none
  maintenanceFlushInterval := 0

/-- A number if it is below `bound`. -/
def fits? (bound n : Nat) : Option Nat := if n < bound then some n else none

/-- The value of a digit. -/
def digit? (c : Char) : Option Nat := if c.isDigit then some (c.toNat - '0'.toNat) else none

/-- The number that comes of `n` with some digits behind it. No product and no sum on the way to
    it may reach `bound`. -/
def digits? (bound n : Nat) : List Char → Option Nat
  | [] => some n
  | c :: cs => do
    let d ← digit? c
    let shifted ← fits? bound (n * 10)
    digits? bound (← fits? bound (shifted + d)) cs

/-- The number below `bound` that one digit or more stand for. -/
def unsigned? (bound : Nat) : List Char → Option Nat
  | [] => none
  | ds => digits? bound 0 ds

/-- A text without the plus sign in front of it, if there is one. -/
def afterPlus : List Char → List Char
  | '+' :: ds => ds
  | ds => ds

/-- The number below `bound` in a variable: digits, perhaps with a plus sign in front and white
    space around them. -/
def number? (bound : Nat) (value : Option Bytes) : Option Nat := do
  let cs ← Text.Utf8.decode? (← value)
  unsigned? bound (afterPlus (Text.trim cs))

/-- The text in a variable, as it stands, unless it is blank. -/
def text? (value : Option Bytes) : Option String := do
  let cs ← Text.Utf8.decode? (← value)
  if cs.all Text.isBlank then none else some (String.ofList cs)

/-- The word in a variable, or else the default. -/
def word (value : Option Bytes) (fallback : UInt64) : UInt64 :=
  ((number? UInt64.size value).map UInt64.ofNat).getD fallback

/-- The configuration that an environment amounts to. -/
def ofEnvironment (env : String → Option Bytes) : Config where
  serverPort := ((number? UInt16.size (env "SERVER_PORT")).map UInt16.ofNat).getD default.serverPort
  newsPollingInterval := word (env "NEWS_POLLING_INTERVAL") default.newsPollingInterval
  newsFlushInterval := word (env "NEWS_FLUSH_INTERVAL") default.newsFlushInterval
  quotePollingInterval := word (env "QUOTE_POLLING_INTERVAL") default.quotePollingInterval
  quoteFlushInterval := word (env "QUOTE_FLUSH_INTERVAL") default.quoteFlushInterval
  durableTtl := word (env "DURABLE_TTL") default.durableTtl
  durablePath := text? (env "DURABLE_PATH")
  providerBaseUrl := (text? (env "UPSTREAM_BASE_URL")).getD default.providerBaseUrl
  providerApiKey := text? (env "UPSTREAM_API_KEY")
  maintenanceFlushInterval :=
    word (env "MAINTENANCE_FLUSH_INTERVAL") default.maintenanceFlushInterval

/-- The settings of the cache of news. -/
def newsSettings (c : Config) : CacheSettings :=
  (CacheSettings.ofIntervals c.newsPollingInterval c.newsFlushInterval).withDurableTtl c.durableTtl

/-- The settings of the cache of quotes. -/
def quoteSettings (c : Config) : CacheSettings :=
  (CacheSettings.ofIntervals c.quotePollingInterval c.quoteFlushInterval).withDurableTtl
    c.durableTtl

end Config

end MarketCache
