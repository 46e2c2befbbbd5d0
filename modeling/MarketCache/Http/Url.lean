import MarketCache.Http.Percent

/-!
# Addresses

Absolute addresses of resources on servers, and what of them a request for the resource holds.
An address is brought into one spelling first: dot segments are resolved, backslashes in the
path are slashes, and characters that may not stand there are escaped.

    ("http" / "https") "://" [ user "@" ] server path [ "?" query ] [ "#" fragment ]

Main definitions:
* `Url.ofText?`: reads an address.
* `Url.withQuery`, `Url.target`: what is asked of the server.
-/

namespace MarketCache.Http

/-- An address without its fragment. -/
structure Url where
  scheme : String
  /-- The name of the server and perhaps a number behind a colon. -/
  server : String
  /-- Starts with a slash. -/
  path : List Char
  query : Option (List Char)
deriving DecidableEq, Repr

namespace Url

/-- Whether a character is dropped wherever it stands. -/
def isDropped (c : Char) : Bool := c == '\t' || c == '\n' || c == '\r'

/-- Whether a character is dropped at the ends of an address. -/
def isPadding (c : Char) : Bool := c.toNat ≤ 32

/-- Whether a character ends the name of the server. -/
def endsServer (c : Char) : Bool := c == '/' || c == '\\' || c == '?' || c == '#'

/-- Whether a character may stand in a query: ASCII without the control characters and some
    others. -/
def isQueryChar (c : Char) : Bool := 33 ≤ c.toNat && c.toNat < 127 && !"\"#<>'".toList.contains c

/-- Whether a character may stand in a path: ASCII without the control characters and some
    others. -/
def isPathChar (c : Char) : Bool :=
  33 ≤ c.toNat && c.toNat < 127 && !"\"#<>?`\x7b\x7d".toList.contains c

/-- Whether a character may stand in the name of a host. -/
def isHostChar (c : Char) : Bool := c.isAlphanum || c == '-' || c == '.' || c == '_'

/-- A segment with an escaped dot written out. -/
def plainDots : List Char → List Char
  | '%' :: '2' :: 'e' :: rest => '.' :: plainDots rest
  | '%' :: '2' :: 'E' :: rest => '.' :: plainDots rest
  | c :: rest => c :: plainDots rest
  | [] => []

/-- The segments of a path with `.` and `..` resolved, after those that `acc` holds in reverse.
    Either of them at the end leaves an empty segment. -/
def resolve (acc : List (List Char)) : List (List Char) → List (List Char)
  | [] => acc.reverse
  | segment :: rest =>
    let place (acc : List (List Char)) := if rest.isEmpty then [] :: acc else acc
    if plainDots segment = ['.'] then resolve (place acc) rest
    else if plainDots segment = ['.', '.'] then resolve (place (acc.drop 1)) rest
    else resolve (segment :: acc) rest

/-- The one spelling of a path. -/
def normalPath (cs : List Char) : List Char :=
  let slashed := cs.map fun c => if c == '\\' then '/' else c
  let segments :=
    match Text.fields '/' slashed with
    | [] :: rest => rest
    | segments => segments
  '/' :: Text.join '/' ((resolve [] segments).map (Percent.encode isPathChar))

/-- Whether a text is the name of a server, perhaps with a number of 16 bits behind a colon. -/
def isServer (cs : List Char) : Bool :=
  let host := cs.takeWhile (· != ':')
  let number := (cs.dropWhile (· != ':')).drop 1
  !host.isEmpty && host.all isHostChar && number.all Char.isDigit &&
    Nat.ofDigitChars 10 number 0 < UInt16.size

/-- The address that a text names. -/
def ofText? (text : String) : Option Url := do
  let trimmed := ((text.toList.dropWhile isPadding).reverse.dropWhile isPadding).reverse
  let cs := trimmed.filter (!isDropped ·)
  let scheme := (String.ofList (cs.takeWhile (· != ':'))).toLower
  guard (scheme == "http" || scheme == "https")
  match cs.dropWhile (· != ':') with
  | ':' :: '/' :: '/' :: rest =>
    let authority := rest.takeWhile (!endsServer ·)
    let rest := rest.dropWhile (!endsServer ·)
    let server := (authority.reverse.takeWhile (· != '@')).reverse
    guard (isServer server)
    let rest := rest.takeWhile (· != '#')
    let path := rest.takeWhile (· != '?')
    let query :=
      match rest.dropWhile (· != '?') with
      | _ :: query => some (Percent.encode isQueryChar query)
      | [] => none
    some ⟨scheme, String.ofList server, normalPath path, query⟩
  | _ => none

/-- The address with more behind its query. -/
def withQuery (u : Url) (more : List Char) : Url :=
  match u.query with
  | some (c :: cs) => { u with query := some (c :: cs ++ '&' :: more) }
  | _ => { u with query := some more }

/-- The resource, as the server is asked for it. -/
def target (u : Url) : String :=
  String.ofList (u.path ++ (u.query.map ('?' :: ·)).getD [])

end Url

end MarketCache.Http
