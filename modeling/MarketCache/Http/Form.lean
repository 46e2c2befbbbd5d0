import MarketCache.Http.Percent

/-!
# Forms

Lists of named values as they stand in the query of a request: `name=value`, with `&` between
them, a plus sign for a space, and escapes for whatever would be misread.

Main definitions:
* `Form.encode`, `Form.decode`: named values to a query and back.
* `Form.optional`, `Form.required`: the value of a field that may be there once.
-/

namespace MarketCache.Http

/-- Named values in order. -/
abbrev Form := List (String × String)

/-- Why a form does not hold what is asked of it. -/
inductive FormFault where
  | missing (name : String)
  | repeated (name : String)
deriving DecidableEq, Repr

/-- The text of a fault. -/
def FormFault.message : FormFault → String
  | .missing name => "missing field `" ++ name ++ "`"
  | .repeated name => "duplicate field `" ++ name ++ "`"

namespace Form

/-- Whether a character stands for itself: letters, digits and four others. -/
def isPlain (c : Char) : Bool :=
  c.isAlphanum || c == '*' || c == '-' || c == '.' || c == '_'

/-- A name or value as it is written. -/
def encodeText (s : String) : List Char :=
  s.toList.flatMap fun c => if c == ' ' then ['+'] else Percent.encode isPlain [c]

/-- A query with the given named values. -/
def encode (form : Form) : List Char :=
  Text.join '&' (form.map fun (name, value) => encodeText name ++ '=' :: encodeText value)

/-- A name or value as it is meant. Bytes that are no UTF-8 are replaced. -/
def decodeText (cs : List Char) : String :=
  let spaced := cs.map fun c => if c == '+' then ' ' else c
  String.ofList (Text.Utf8.decodeLossy (Percent.decode (Text.Utf8.encode spaced)))

/-- A named value. Without an equals sign all of it is the name. -/
def decodePair (cs : List Char) : String × String :=
  (decodeText (cs.takeWhile (· != '=')), decodeText ((cs.dropWhile (· != '=')).drop 1))

/-- The named values of a query. Nothing between two separators is no value. -/
def decode (query : List Char) : Form :=
  ((Text.fields '&' query).filter (!·.isEmpty)).map decodePair

/-- The value of a field that may be there at most once. -/
def optional (name : String) (form : Form) : Except FormFault (Option String) :=
  match form.filter (·.1 == name) with
  | [] => .ok none
  | [field] => .ok (some field.2)
  | _ => .error (.repeated name)

/-- The value of a field that has to be there once. -/
def required (name : String) (form : Form) : Except FormFault String :=
  match optional name form with
  | .ok (some value) => .ok value
  | .ok none => .error (.missing name)
  | .error e => .error e

end Form

end MarketCache.Http
