import Std.Data.ExtTreeSet
import MarketCache.Text.Blank
import MarketCache.Text.Digits
import MarketCache.Text.Uppercase

/-!
# Logical queries

What a client asks the provider for: a set of symbols and an ordered list of filters. Symbols
are trimmed and written in upper case, and blank ones do not count, so that the order, the
repetition and the spelling of symbols make no difference between queries.

Main definitions:
* `Symbol.normal`: the one spelling of a symbol.
* `LogicalQuery.ofSymbols`, `LogicalQuery.ofSymbolList`: a query for some symbols.
* `LogicalQuery.withFilter`: the query with one more filter behind the others.
-/

namespace MarketCache

/-- The one spelling of a symbol: without white space at its ends, in upper case. -/
def Symbol.normal (s : String) : String := String.ofList (Text.upper (Text.trim s.toList))

/-- A named restriction of a query; an unset value is not the empty one. -/
structure QueryFilter where
  name : String
  value : Option String
deriving DecidableEq, Repr

/-- A query for the symbols of a set, under the filters of a list. -/
structure LogicalQuery where
  symbolSet : Std.ExtTreeSet String compare
  filters : List QueryFilter
deriving DecidableEq

namespace LogicalQuery

/-- The query without filters for the given symbols. -/
def ofSymbols (raw : List String) : LogicalQuery :=
  ⟨Std.ExtTreeSet.ofList ((raw.map Symbol.normal).filter fun s => !s.isEmpty) compare, []⟩

/-- The query without filters for symbols that are separated by commas. -/
def ofSymbolList (list : String) : LogicalQuery :=
  ofSymbols ((Text.fields ',' list.toList).map String.ofList)

/-- The query with one more filter. -/
def withFilter (q : LogicalQuery) (name : String) (value : Option String) : LogicalQuery :=
  { q with filters := q.filters ++ [⟨name, value⟩] }

/-- The symbols in increasing order. -/
def symbols (q : LogicalQuery) : List String := q.symbolSet.toList

/-- Whether the query has no symbol. -/
def isEmpty (q : LogicalQuery) : Bool := q.symbolSet.isEmpty

/-- The symbols in increasing order, with commas between them. -/
def joinedSymbols (q : LogicalQuery) : String :=
  String.ofList (Text.join ',' (q.symbols.map String.toList))

@[simp] theorem filters_ofSymbols (raw : List String) : (ofSymbols raw).filters = [] := rfl

@[simp] theorem filters_withFilter (q : LogicalQuery) (name : String) (value : Option String) :
    (q.withFilter name value).filters = q.filters ++ [⟨name, value⟩] := rfl

/-- A symbol belongs to a query for some symbols iff it is the normal spelling of one of
    them and not blank. -/
theorem mem_symbolSet_ofSymbols {raw : List String} {s : String} :
    s ∈ (ofSymbols raw).symbolSet ↔ s.isEmpty = false ∧ ∃ r ∈ raw, Symbol.normal r = s := by
  simp only [ofSymbols, Std.ExtTreeSet.mem_ofList, List.contains_iff_mem, List.mem_filter,
    List.mem_map, Bool.not_eq_true']
  exact and_comm

end LogicalQuery

end MarketCache
