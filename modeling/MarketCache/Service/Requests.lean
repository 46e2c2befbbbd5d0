import MarketCache.Json.Record
import MarketCache.Query.Basic
import MarketCache.Text.Blank

/-!
# Requests of the service

What clients send along: the parameters of a lookup, and the notification for which the gate
is asked.
-/

namespace MarketCache

/-- The parameters of a request for news. -/
structure NewsParams where
  /-- Symbols with commas between them. -/
  symbols : String
  from? : Option String
  to? : Option String
deriving DecidableEq, Repr

/-- The parameters of a request for quotes. -/
structure QuoteParams where
  /-- Symbols with commas between them. -/
  symbols : String
deriving DecidableEq, Repr

/-- A notification about an event to a recipient. -/
structure ThrottleRequest where
  event : String
  recipient : String
deriving DecidableEq, Repr

namespace NewsParams

/-- The query that is asked for. The filters always come in the same order. -/
def toQuery (p : NewsParams) : LogicalQuery :=
  ((LogicalQuery.ofSymbolList p.symbols).withFilter "from" p.from?).withFilter "to" p.to?

/-- Parameters of which some are known. -/
structure Known where
  symbols : Option String
  from? : Option (Option String)
  to? : Option (Option String)

/-- The parameters as a JSON record. -/
def shape : Json.Shape Known NewsParams where
  fields := [
    .of "symbols" true Json.textField (·.symbols) fun v s => { s with symbols := some v },
    .of "from" false Json.optionalTextField (·.from?) fun v s => { s with from? := some v },
    .of "to" false Json.optionalTextField (·.to?) fun v s => { s with to? := some v }]
  start := ⟨none, none, none⟩
  finish? s := s.symbols.map fun symbols => ⟨symbols, s.from?.join, s.to?.join⟩

end NewsParams

namespace QuoteParams

/-- The query that is asked for. -/
def toQuery (p : QuoteParams) : LogicalQuery := LogicalQuery.ofSymbolList p.symbols

/-- The parameters as a JSON record. -/
def shape : Json.Shape (Option String) QuoteParams where
  fields := [.of "symbols" true Json.textField id fun v _ => some v]
  start := none
  finish? s := s.map QuoteParams.mk

end QuoteParams

namespace ThrottleRequest

/-- What is wrong with a request, if anything is. -/
def fault? (r : ThrottleRequest) : Option String :=
  if Text.isBlankText r.event then some "Event cannot be empty"
  else if Text.isBlankText r.recipient then some "Recipient cannot be empty"
  else none

/-- A request of which some fields are known. -/
structure Known where
  event : Option String
  recipient : Option String

/-- The request as a JSON record. -/
def shape : Json.Shape Known ThrottleRequest where
  fields := [
    .of "event" true Json.textField (·.event) fun v s => { s with event := some v },
    .of "recipient" true Json.textField (·.recipient) fun v s => { s with recipient := some v }]
  start := ⟨none, none⟩
  finish? s := do
    let event ← s.event
    let recipient ← s.recipient
    some ⟨event, recipient⟩

end ThrottleRequest

end MarketCache
