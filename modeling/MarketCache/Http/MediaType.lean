import MarketCache.Text.Digits

/-!
# Media types

The kind of a message's body, as its header names it: a type, a subtype, perhaps a suffix that
names the syntax underneath, and parameters. Names are compared without regard to case.

    type "/" subtype [ "+" suffix ] *( ";" *SP [ name "=" value ] )

A value is a token, or ASCII text between quotes.

Main definitions:
* `MediaType.ofText?`: reads a header.
* `MediaType.isJson`: whether the body is JSON.
-/

namespace MarketCache.Http

/-- A media type, its names in lower case; parameters are not kept. -/
structure MediaType where
  type : String
  /-- Without the suffix. -/
  subtype : String
  suffix : Option String
deriving DecidableEq, Repr

namespace MediaType

/-- Whether a character may occur in a token. -/
def isTokenChar (c : Char) : Bool := c.isAlphanum || "!#$%&'*+-.^_`|~".toList.contains c

/-- Whether a character may stand between quotes: ASCII without the control characters. -/
def isQuotable (c : Char) : Bool := 32 ≤ c.toNat && c.toNat < 127

/-- What follows a quoted value: spaces, and then the end or the next parameter, behind its
    semicolon. -/
def afterQuoted (cs : List Char) : Option (List Char) :=
  match cs.dropWhile (· == ' ') with
  | [] => some []
  | ';' :: rest => some rest
  | _ => none

/-- What follows the value of a parameter, behind the semicolon. A quoted value is not empty,
    so that a quote in the first place belongs to it. -/
def afterValue? : List Char → Option (List Char)
  | '"' :: first :: rest =>
    if isQuotable first then
      match (rest.dropWhile fun c => isQuotable c && c != '"') with
      | '"' :: rest => afterQuoted rest
      | _ => none
    else none
  | cs =>
    match cs.dropWhile isTokenChar with
    | [] => some []
    | ';' :: rest => if (cs.takeWhile isTokenChar).isEmpty then none else some rest
    | _ => none

/-- What follows a parameter that starts here, behind the semicolon. -/
def afterParameter? (cs : List Char) : Option (List Char) :=
  if (cs.takeWhile isTokenChar).isEmpty then none
  else
    match cs.dropWhile isTokenChar with
    | '=' :: value => afterValue? value
    | _ => none

/-- Whether a text is a list of parameters. Every parameter uses up one unit of `fuel`. -/
def areParameters : Nat → List Char → Bool
  | 0, _ => false
  | fuel + 1, cs =>
    match cs.dropWhile (· == ' ') with
    | [] => true
    | c :: rest =>
      match afterParameter? (c :: rest) with
      | some rest => areParameters fuel rest
      | none => false

/-- A subtype and its suffix, which is what follows the last plus sign, unless that is the first
    character. -/
def splitSuffix (cs : List Char) : List Char × Option (List Char) :=
  match cs with
  | [] => ([], none)
  | first :: rest =>
    let tail := (rest.reverse.takeWhile (· != '+')).reverse
    if tail.length = rest.length then (cs, none)
    else (first :: rest.take (rest.length - tail.length - 1), some tail)

/-- The media type that a header names. -/
def ofText? (text : String) : Option MediaType :=
  let cs := text.toList
  let type := cs.takeWhile isTokenChar
  match cs.dropWhile isTokenChar with
  | '/' :: rest =>
    let (subtype, suffix) := splitSuffix (rest.takeWhile isTokenChar)
    let found : MediaType := ⟨(String.ofList type).toLower, (String.ofList subtype).toLower,
      suffix.map fun cs => (String.ofList cs).toLower⟩
    if type.isEmpty then none
    else
      match rest.dropWhile isTokenChar with
      | [] => some found
      | ';' :: parameters =>
        if !subtype.isEmpty && areParameters (parameters.length + 1) parameters then some found
        else none
      | _ => none
  | _ => none

/-- Whether the body is JSON: its subtype or the syntax underneath is. -/
def isJson (m : MediaType) : Bool :=
  m.type == "application" && (m.subtype == "json" || m.suffix == some "json")

end MediaType

end MarketCache.Http
