import MarketCache.Query.Basic

/-!
# Cache keys

The text under which the tiers keep the answer to a query. A namespace, the symbols and the
filters follow each other with separators between them; a separator inside one of them has a
backslash in front of it, so different queries have different keys.

Main definitions:
* `Key.escape`: a component of a key.
* `LogicalQuery.key`: the key of a query in a namespace.
-/

namespace MarketCache

namespace Key

/-- Whether a character separates the components of keys. -/
def isSeparator (c : Char) : Bool :=
  c == '\\' || c == ':' || c == ',' || c == '|' || c == '=' || c == '~'

/-- A component with a backslash in front of every separator in it. -/
def escape (cs : List Char) : List Char :=
  cs.flatMap fun c => if isSeparator c then ['\\', c] else [c]

/-- A filter behind the symbols: a value that is set follows an equals sign, an unset one is
    marked by a tilde. -/
def filterText (f : QueryFilter) : List Char :=
  '|' :: escape f.name.toList ++
    match f.value with
    | some v => '=' :: escape v.toList
    | none => ['~']

@[simp] theorem escape_nil : escape [] = [] := rfl

@[simp] theorem escape_cons (c : Char) (cs : List Char) :
    escape (c :: cs) = (if isSeparator c then ['\\', c] else [c]) ++ escape cs := rfl

end Key

/-- The key of a query in the namespace `space`, as characters. -/
def LogicalQuery.keyChars (q : LogicalQuery) (space : String) : List Char :=
  Key.escape space.toList ++
    ':' :: Text.join ',' (q.symbols.map fun s => Key.escape s.toList) ++
      q.filters.flatMap Key.filterText

/-- The key of a query in the namespace `space`. -/
def LogicalQuery.key (q : LogicalQuery) (space : String) : String :=
  String.ofList (q.keyChars space)

end MarketCache
